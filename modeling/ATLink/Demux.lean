import ATLink.Conservation

/-!
# Demultiplexing

A stream made of frames on which the verdicts of the parsers do not depend on what follows.

* `Framed` — what is asked of the frames and the parsers: the response and the result pack accept
  a frame as a whole or reject it, never both, and the dispatcher takes every frame.
* `owner` — who gets the frame with a given index: the first response frame goes to the response
  (when one is missing), the first result frame to the result pack, all others are URCs.

Principal result: `receive_demultiplexes` — one call of `receive` on the whole stream hands every
frame to its owner and succeeds with nothing left over.
-/

namespace ATLink

open LabelledRun

section Frames

variable {π ρ δ : Type} (V : Virtuals π ρ δ)

/-- The parsers decide each of the frames by itself.  `expected` tells whether there is a
response object; without one its parser is not asked. -/
structure Framed (expected : Bool) (isResponse isResult : Text → Bool) (fs : List Text) : Prop where
  nonempty : ∀ f ∈ fs, f ≠ []
  response : expected = true → ∀ f ∈ fs, ∀ res rest, ∃ res' n,
    V.acceptResponse res (f ++ rest) = some (isResponse f, res', n) ∧
      (isResponse f = true → n = f.length)
  result : ∀ f ∈ fs, ∀ frc rest, ∃ frc' n,
    V.acceptResult frc (f ++ rest) = some (isResult f, frc', n) ∧
      (isResult f = true → n = f.length)
  disjoint : expected = true → ∀ f ∈ fs, ¬ (isResponse f = true ∧ isResult f = true)
  urc : ∀ f ∈ fs, ∀ urcs rest, ∃ urcs', V.dispatch urcs (f ++ rest) = some (f.length, urcs')
  bounded : ∀ urcs txt, ∃ n urcs', V.dispatch urcs txt = some (n, urcs') ∧ n ≤ txt.length

/-- The object is what the response parser makes of the frame. -/
def ResponseFrom (f : Text) (res : ρ) : Prop :=
  ∃ before rest n, V.acceptResponse before (f ++ rest) = some (true, res, n)

/-- The pack is what the result parser makes of the frame. -/
def ResultFrom (f : Text) (frc : π) : Prop :=
  ∃ before rest n, V.acceptResult before (f ++ rest) = some (true, frc, n)

/-- The consumer of the frame with index `k`, while a response or a result is missing. -/
def owner (isResponse isResult : Text → Bool) (haveResponse haveResult : Bool) (fs : List Text)
    (k : Nat) : Consumer :=
  if haveResponse = false ∧ k = fs.findIdx isResponse then .response
  else if haveResult = false ∧ k = fs.findIdx isResult then .result
  else .urc

/-- Every frame with its consumer. -/
def demux (isResponse isResult : Text → Bool) (haveResponse haveResult : Bool) (fs : List Text) :
    List Slice :=
  fs.mapIdx fun k f => (owner isResponse isResult haveResponse haveResult fs k, f)

variable {V} {expected : Bool} {isResponse isResult : Text → Bool} {f : Text} {fs : List Text}

theorem Framed.tail (h : Framed V expected isResponse isResult (f :: fs)) :
    Framed V expected isResponse isResult fs where
  nonempty g hg := h.nonempty g (List.mem_cons_of_mem f hg)
  response he g hg := h.response he g (List.mem_cons_of_mem f hg)
  result g hg := h.result g (List.mem_cons_of_mem f hg)
  disjoint he g hg := h.disjoint he g (List.mem_cons_of_mem f hg)
  urc g hg := h.urc g (List.mem_cons_of_mem f hg)
  bounded := h.bounded

/-! ## The frame at the head -/

theorem demux_cons_response (hf : isResponse f = true) (haveResult : Bool)
    (hd : isResult f = false) :
    demux isResponse isResult false haveResult (f :: fs) =
      (.response, f) :: demux isResponse isResult true haveResult fs := by
  unfold demux owner
  simp [List.mapIdx_cons, List.findIdx_cons, hf, hd]

theorem demux_cons_result (hf : isResult f = true) (haveResponse : Bool)
    (hd : haveResponse = false → isResponse f = false) :
    demux isResponse isResult haveResponse false (f :: fs) =
      (.result, f) :: demux isResponse isResult haveResponse true fs := by
  unfold demux owner
  cases haveResponse with
  | true => simp [List.mapIdx_cons, List.findIdx_cons, hf]
  | false => simp [List.mapIdx_cons, List.findIdx_cons, hf, hd rfl]

theorem demux_cons_urc {haveResponse haveResult : Bool}
    (hres : haveResponse = false → isResponse f = false)
    (hfrc : haveResult = false → isResult f = false) :
    demux isResponse isResult haveResponse haveResult (f :: fs) =
      (.urc, f) :: demux isResponse isResult haveResponse haveResult fs := by
  unfold demux owner
  cases haveResponse <;> cases haveResult <;>
    simp [List.mapIdx_cons, List.findIdx_cons, hres, hfrc]

/-! ## The loop over frames -/

variable (V isResponse isResult fs) in
/-- What the loop makes of the frames from the state `s` on. -/
structure Demultiplexed (s t : RxLoop π ρ δ) : Prop where
  runs : Runs V s t
  input : t.input = []
  haveResponse : t.haveResponse = true
  haveResult : t.haveResult = true
  taken : t.taken = s.taken ++ demux isResponse isResult s.haveResponse s.haveResult fs
  kept : s.haveResponse = true → t.res = s.res
  response : s.haveResponse = false →
    ∃ g res, fs.find? isResponse = some g ∧ t.res = some res ∧ ResponseFrom V g res
  keptResult : s.haveResult = true → t.frc = s.frc
  result : s.haveResult = false → ∃ g, fs.find? isResult = some g ∧ ResultFrom V g t.frc

variable (isResponse isResult fs) in
/-- The state has the frames before it, and what is missing is among them. -/
structure Pending (s : RxLoop π ρ δ) : Prop where
  input : s.input = fs.flatten
  expected : s.haveResponse = false → s.res ≠ none
  response : s.haveResponse = false → ∃ g ∈ fs, isResponse g = true
  result : s.haveResult = false → ∃ g ∈ fs, isResult g = true

theorem exists_mem_tail {p : Text → Bool} (h : ∃ g ∈ f :: fs, p g = true) (hf : p f = false) :
    ∃ g ∈ fs, p g = true := by
  obtain ⟨g, hg, hp⟩ := h
  rcases List.mem_cons.1 hg with rfl | hg
  · rw [hf] at hp; cases hp
  · exact ⟨g, hg, hp⟩

section Turns

variable {s t : RxLoop π ρ δ}

/-- Without frames left nothing is missing, and the loop ends. -/
theorem demultiplexed_nil (hframed : Framed V expected isResponse isResult [])
    (hp : Pending isResponse isResult [] s) : ∃ t, Demultiplexed V isResponse isResult [] s t := by
  have hresponse : s.haveResponse = true := by
    cases h : s.haveResponse with
    | true => rfl
    | false => obtain ⟨g, hg, -⟩ := hp.response h; cases hg
  have hresult : s.haveResult = true := by
    cases h : s.haveResult with
    | true => rfl
    | false => obtain ⟨g, hg, -⟩ := hp.result h; cases hg
  obtain ⟨n, urcs, hd, hn⟩ := hframed.bounded s.urcs s.input
  obtain rfl : n = 0 := by rw [hp.input] at hn; exact Nat.le_zero.1 hn
  exact ⟨{ s with urcs := urcs }, {
    runs := .last (.last (.taken hresponse) (.taken hresult) hd)
    input := hp.input
    haveResponse := hresponse
    haveResult := hresult
    taken := by simp [demux]
    kept := fun _ => rfl
    response := fun h => by rw [hresponse] at h; cases h
    keptResult := fun _ => rfl
    result := fun h => by rw [hresult] at h; cases h }⟩

/-- The first response frame, taken while the response is missing. -/
theorem Demultiplexed.cons_response {res' : ρ} (hflag : s.haveResponse = false)
    (hf : isResponse f = true) (hnot : isResult f = false) (hfrom : ResponseFrom V f res')
    (hturn : Turn V s true { s with
      input := fs.flatten, haveResponse := true, res := some res',
      taken := s.taken ++ [(.response, f)] })
    (ht : Demultiplexed V isResponse isResult fs { s with
      input := fs.flatten, haveResponse := true, res := some res',
      taken := s.taken ++ [(.response, f)] } t) :
    Demultiplexed V isResponse isResult (f :: fs) s t where
  runs := .turn hturn ht.runs
  input := ht.input
  haveResponse := ht.haveResponse
  haveResult := ht.haveResult
  taken := by
    rw [ht.taken, hflag, demux_cons_response hf _ hnot, List.append_assoc]
    rfl
  kept h := by rw [hflag] at h; cases h
  response _ := ⟨f, res', by simp [hf], ht.kept rfl, hfrom⟩
  keptResult := ht.keptResult
  result h := by simpa [List.find?_cons, hnot] using ht.result h

/-- The first result frame, taken while the result is missing. -/
theorem Demultiplexed.cons_result {res' : Option ρ} {frc' : π} (hflag : s.haveResult = false)
    (hf : isResult f = true) (hnot : s.haveResponse = false → isResponse f = false)
    (hkept : s.haveResponse = true → res' = s.res) (hfrom : ResultFrom V f frc')
    (hturn : Turn V s true { s with
      input := fs.flatten, haveResult := true, frc := frc', res := res',
      taken := s.taken ++ [(.result, f)] })
    (ht : Demultiplexed V isResponse isResult fs { s with
      input := fs.flatten, haveResult := true, frc := frc', res := res',
      taken := s.taken ++ [(.result, f)] } t) :
    Demultiplexed V isResponse isResult (f :: fs) s t where
  runs := .turn hturn ht.runs
  input := ht.input
  haveResponse := ht.haveResponse
  haveResult := ht.haveResult
  taken := by
    rw [ht.taken, hflag, demux_cons_result hf _ hnot, List.append_assoc]
    rfl
  kept h := (ht.kept h).trans (hkept h)
  response h := by simpa [List.find?_cons, hnot h] using ht.response h
  keptResult h := by rw [hflag] at h; cases h
  result _ := ⟨f, by simp [hf], by rw [ht.keptResult rfl]; exact hfrom⟩

/-- A frame for neither of what is missing. -/
theorem Demultiplexed.cons_urc {res' : Option ρ} {frc' : π} {urcs : δ}
    (hnot : s.haveResponse = false → isResponse f = false)
    (hnot' : s.haveResult = false → isResult f = false) (hkept : s.haveResponse = true → res' = s.res)
    (hkept' : s.haveResult = true → frc' = s.frc)
    (hturn : Turn V s true { s with
      input := fs.flatten, frc := frc', res := res', urcs := urcs, taken := s.taken ++ [(.urc, f)] })
    (ht : Demultiplexed V isResponse isResult fs { s with
      input := fs.flatten, frc := frc', res := res', urcs := urcs,
      taken := s.taken ++ [(.urc, f)] } t) :
    Demultiplexed V isResponse isResult (f :: fs) s t where
  runs := .turn hturn ht.runs
  input := ht.input
  haveResponse := ht.haveResponse
  haveResult := ht.haveResult
  taken := by
    rw [ht.taken, demux_cons_urc hnot hnot', List.append_assoc]
    rfl
  kept h := (ht.kept h).trans (hkept h)
  response h := by simpa [List.find?_cons, hnot h] using ht.response h
  keptResult h := (ht.keptResult h).trans (hkept' h)
  result h := by simpa [List.find?_cons, hnot' h] using ht.result h

/-- A frame that is not for the response passes it. -/
theorem Framed.passes_response (hframed : Framed V expected isResponse isResult (f :: fs))
    (hexp : s.haveResponse = false → expected = true) (hres : s.haveResponse = false → s.res ≠ none)
    (hinput : s.input = f ++ fs.flatten) (hnot : s.haveResponse = false → isResponse f = false) :
    ∃ res', NoResponse V s.haveResponse s.res s.input res' ∧
      (s.haveResponse = true → res' = s.res) ∧ (s.haveResponse = false → res' ≠ none) := by
  cases hflag : s.haveResponse with
  | true => exact ⟨s.res, .taken rfl, fun _ => rfl, fun h => by cases h⟩
  | false =>
    obtain ⟨res, hsome⟩ := Option.ne_none_iff_exists'.1 (hres hflag)
    obtain ⟨res', n, ha, -⟩ := hframed.response (hexp hflag) f (by simp) res fs.flatten
    rw [hnot hflag, ← hinput] at ha
    exact ⟨some res', .rejects rfl hsome ha, fun h => (by cases h), fun _ => by simp⟩

/-- A frame that is not for the result passes it. -/
theorem Framed.passes_result (hframed : Framed V expected isResponse isResult (f :: fs))
    (hinput : s.input = f ++ fs.flatten) (hnot : s.haveResult = false → isResult f = false) :
    ∃ frc', NoResult V s.haveResult s.frc s.input frc' ∧ (s.haveResult = true → frc' = s.frc) := by
  cases hflag : s.haveResult with
  | true => exact ⟨s.frc, .taken rfl, fun _ => rfl⟩
  | false =>
    obtain ⟨frc', n, ha, -⟩ := hframed.result f (by simp) s.frc fs.flatten
    rw [hnot hflag, ← hinput] at ha
    exact ⟨frc', .rejects rfl ha, fun h => by cases h⟩

end Turns

/-- The loop hands the frames to their owners: induction on the frames, one turn for each. -/
theorem frames_demultiplexed : ∀ {fs : List Text} {s : RxLoop π ρ δ},
    Framed V expected isResponse isResult fs → (s.haveResponse = false → expected = true) →
    Pending isResponse isResult fs s → ∃ t, Demultiplexed V isResponse isResult fs s t
  | [], _, hframed, _, hp => demultiplexed_nil hframed hp
  | f :: fs, s, hframed, hexp, hp => by
    have hinput : s.input = f ++ fs.flatten := hp.input
    have hdrop : s.input.drop f.length = fs.flatten := by rw [hinput, List.drop_left]
    have htake : s.input.take f.length = f := by rw [hinput, List.take_left]
    have hlen : f.length ≤ s.input.length := by rw [hinput, List.length_append]; omega
    by_cases hA : s.haveResponse = false ∧ isResponse f = true
    · -- the response is missing and this is its frame
      obtain ⟨hflag, hf⟩ := hA
      obtain ⟨res, hres⟩ := Option.ne_none_iff_exists'.1 (hp.expected hflag)
      obtain ⟨res', n, ha, hn⟩ := hframed.response (hexp hflag) f (by simp) res fs.flatten
      have hfrom : ResponseFrom V f res' := ⟨res, fs.flatten, n, by rw [ha, hf]⟩
      obtain rfl : n = f.length := hn hf
      rw [hf, ← hinput] at ha
      have hnot : isResult f = false := Bool.eq_false_iff.2 fun h =>
        hframed.disjoint (hexp hflag) f (by simp) ⟨hf, h⟩
      have hturn := Turn.response hflag hres ha hlen
      rw [hdrop, htake] at hturn
      obtain ⟨t, ht⟩ := frames_demultiplexed (s := { s with
          input := fs.flatten, haveResponse := true, res := some res',
          taken := s.taken ++ [(.response, f)] }) hframed.tail (fun h => by cases h)
        ⟨rfl, fun h => (by cases h), fun h => (by cases h), fun h => exists_mem_tail (hp.result h) hnot⟩
      exact ⟨t, ht.cons_response hflag hf hnot hfrom hturn⟩
    · -- the frame is not for the response: it is not missing, or it rejects the frame
      have hnot : s.haveResponse = false → isResponse f = false := fun h =>
        Bool.eq_false_iff.2 fun hf => hA ⟨h, hf⟩
      obtain ⟨res', hno, hkept, hsome⟩ := hframed.passes_response hexp hp.expected hinput hnot
      by_cases hB : s.haveResult = false ∧ isResult f = true
      · -- the result is missing and this is its frame
        obtain ⟨hflag, hf⟩ := hB
        obtain ⟨frc', n, ha, hn⟩ := hframed.result f (by simp) s.frc fs.flatten
        have hfrom : ResultFrom V f frc' := ⟨s.frc, fs.flatten, n, by rw [ha, hf]⟩
        obtain rfl : n = f.length := hn hf
        rw [hf, ← hinput] at ha
        have hturn := Turn.result hno hflag ha hlen
        rw [hdrop, htake] at hturn
        obtain ⟨t, ht⟩ := frames_demultiplexed (s := { s with
            input := fs.flatten, haveResult := true, frc := frc', res := res',
            taken := s.taken ++ [(.result, f)] }) hframed.tail hexp
          ⟨rfl, hsome, fun h => exists_mem_tail (hp.response h) (hnot h), fun h => (by cases h)⟩
        exact ⟨t, ht.cons_result hflag hf hnot hkept hfrom hturn⟩
      · -- a URC
        have hnot' : s.haveResult = false → isResult f = false := fun h =>
          Bool.eq_false_iff.2 fun hf => hB ⟨h, hf⟩
        obtain ⟨frc', hno', hkept'⟩ := hframed.passes_result hinput hnot'
        obtain ⟨urcs, hd⟩ := hframed.urc f (by simp) s.urcs fs.flatten
        rw [← hinput] at hd
        have hpos : 0 < f.length := List.length_pos_iff.2 (hframed.nonempty f (by simp))
        have hturn := Turn.urc hno hno' hd hpos hlen
        rw [hdrop, htake] at hturn
        obtain ⟨t, ht⟩ := frames_demultiplexed (s := { s with
            input := fs.flatten, frc := frc', res := res', urcs := urcs,
            taken := s.taken ++ [(.urc, f)] }) hframed.tail hexp
          ⟨rfl, hsome, fun h => exists_mem_tail (hp.response h) (hnot h),
            fun h => exists_mem_tail (hp.result h) (hnot' h)⟩
        exact ⟨t, ht.cons_urc hnot hnot' hkept hkept' hturn⟩

/-! ## One call -/

/-- The attempt before the loop takes a response frame at the head or leaves it all to the loop. -/
theorem receiveLoop_demultiplexed {s : RxLoop π ρ δ} (hframed : Framed V expected isResponse isResult fs)
    (hexp : s.haveResponse = false → expected = true) (hp : Pending isResponse isResult fs s)
    (hne : fs ≠ []) : ∃ s' t, receiveLoop V s = .ok t ∧ s'.haveResponse = s.haveResponse ∧
      s'.haveResult = s.haveResult ∧ s'.taken = s.taken ∧
      Demultiplexed V isResponse isResult fs s' t := by
  obtain ⟨f, fs', rfl⟩ := List.exists_cons_of_ne_nil hne
  have hinput : s.input = f ++ fs'.flatten := hp.input
  have hloop : ∀ res', NoResponse V s.haveResponse s.res s.input res' →
      (s.haveResponse = false → res' ≠ none) → ∃ s' t, receiveLoop V s = .ok t ∧
        s'.haveResponse = s.haveResponse ∧ s'.haveResult = s.haveResult ∧ s'.taken = s.taken ∧
        Demultiplexed V isResponse isResult (f :: fs') s' t := by
    intro res' hno hsome
    obtain ⟨t, ht⟩ := frames_demultiplexed (s := { s with res := res' }) hframed hexp
      ⟨hp.input, hsome, hp.response, hp.result⟩
    exact ⟨{ s with res := res' }, t, by rw [receiveLoop_rejects hno]; exact rxLoop_iff.2 ht.runs,
      rfl, rfl, rfl, ht⟩
  cases hflag : s.haveResponse with
  | true =>
    rw [← hflag]
    exact hloop s.res (.taken hflag) fun h => by rw [hflag] at h; cases h
  | false =>
    rw [← hflag]
    obtain ⟨res, hres⟩ := Option.ne_none_iff_exists'.1 (hp.expected hflag)
    obtain ⟨res', n, ha, hn⟩ := hframed.response (hexp hflag) f (by simp) res fs'.flatten
    rw [← hinput] at ha
    cases hf : isResponse f with
    | true =>
      rw [hf] at ha
      have hlen : n ≤ s.input.length := by
        rw [hn hf, hinput, List.length_append]
        omega
      obtain ⟨t, ht⟩ := frames_demultiplexed hframed hexp hp
      exact ⟨s, t, by rw [receiveLoop_accepts hflag hres ha hlen]; exact rxLoop_iff.2 ht.runs,
        rfl, rfl, rfl, ht⟩
    | false =>
      rw [hf] at ha
      exact hloop (some res') (.rejects hflag hres ha) fun _ => by simp

/-- **Demultiplexing**: one call of `receive` from an empty buffer on a stream of frames, at least
one of them a result and, where a response is expected, one a response, succeeds, leaves nothing
over, stores the first response frame and the first result frame, and hands the others to the
dispatcher in their order. -/
theorem receive_demultiplexes {rx : RxBuffer} {frc : π} {res : Option ρ} {urcs : δ}
    (hempty : rx.leftover = 0) (hframed : Framed V res.isSome isResponse isResult fs)
    (hsize : fs.flatten.length ≤ storageSize) (hresult : ∃ f ∈ fs, isResult f = true)
    (hresponse : res.isSome = true → ∃ f ∈ fs, isResponse f = true) :
    ∃ r, receive V rx fs.flatten frc res urcs = some (.ok r) ∧ r.success = true ∧
      r.rx.leftover = 0 ∧ r.loop.taken = demux isResponse isResult res.isNone false fs ∧
      (∃ f, fs.find? isResult = some f ∧ ResultFrom V f r.loop.frc) ∧
      (res.isSome = true → ∃ f obj, fs.find? isResponse = some f ∧ r.loop.res = some obj ∧
        ResponseFrom V f obj) := by
  obtain ⟨⟨rxstorage, input⟩, hread⟩ :=
    rx.exists_read (show rx.leftover + fs.flatten.length ≤ storageSize by omega)
  have hinput : input = fs.flatten := by
    rw [(RxBuffer.read_eq (by omega) hread).1, RxBuffer.unread, hempty]
    rfl
  subst hinput
  have hnone : res.isNone = false ↔ res.isSome = true := by cases res <;> simp
  have hne : fs ≠ [] := by
    obtain ⟨f, hf, -⟩ := hresult
    exact List.ne_nil_of_mem hf
  obtain ⟨s', t, hloop, hflag, hflag', htaken, ht⟩ :=
    receiveLoop_demultiplexed (s := RxLoop.start fs.flatten frc res urcs) hframed hnone.1
      ⟨rfl, fun h => by cases res <;> simp [RxLoop.start] at h ⊢,
        fun h => hresponse (hnone.1 h), fun _ => hresult⟩ hne
  refine ⟨_, receive_ok_iff.2 ⟨rxstorage, fs.flatten, t, hread, hloop, rfl⟩, ?_, ?_, ?_, ?_, ?_⟩
  · show (t.haveResult && t.haveResponse) = true
    rw [ht.haveResult, ht.haveResponse]
    rfl
  · show t.input.length = 0
    rw [ht.input]
    rfl
  · show t.taken = _
    rw [ht.taken, htaken, hflag, hflag']
    rfl
  · exact ht.result hflag'
  · intro h
    exact ht.response (by rw [hflag]; exact hnone.2 h)

end Frames

/-- Parsers of four characters: `OK` or `+R` and CRLF, and anything else for the dispatcher. -/
def fourParsers : Virtuals Nat Nat Unit where
  acceptResult frc txt := some ((text "OK\r\n").isPrefixOf txt, frc + 1, 4)
  acceptResponse res txt := some ((text "+R\r\n").isPrefixOf txt, res + 1, 4)
  dispatch _ txt := some (if 4 ≤ txt.length then 4 else 0, ())

/-- A URC, a result, a response and a second result. -/
def fourFrames : List Text := [text "HI\r\n", text "OK\r\n", text "+R\r\n", text "OK\r\n"]

theorem fourFrames_framed :
    Framed fourParsers true (· == text "+R\r\n") (· == text "OK\r\n") fourFrames where
  nonempty := by decide
  response := by
    intro _ f hf res rest
    simp only [fourFrames, List.mem_cons, List.not_mem_nil, or_false] at hf
    rcases hf with rfl | rfl | rfl | rfl <;> exact ⟨res + 1, 4, rfl, by decide⟩
  result := by
    intro f hf frc rest
    simp only [fourFrames, List.mem_cons, List.not_mem_nil, or_false] at hf
    rcases hf with rfl | rfl | rfl | rfl <;> exact ⟨frc + 1, 4, rfl, by decide⟩
  disjoint := by decide
  urc := by
    intro f hf urcs rest
    refine ⟨(), ?_⟩
    have hlen : f.length = 4 := by
      simp only [fourFrames, List.mem_cons, List.not_mem_nil, or_false] at hf
      rcases hf with rfl | rfl | rfl | rfl <;> rfl
    simp only [fourParsers, List.length_append]
    rw [if_pos (by omega), hlen]
  bounded := by
    intro urcs txt
    refine ⟨_, (), rfl, ?_⟩
    split <;> omega

theorem receive_demultiplexes_four :
    ∃ r, receive fourParsers RxBuffer.init fourFrames.flatten 0 (some 0) () = some (.ok r) ∧
      r.success = true ∧ r.rx.leftover = 0 ∧
      r.loop.taken = demux (· == text "+R\r\n") (· == text "OK\r\n") false false fourFrames ∧
      (∃ f, fourFrames.find? (· == text "OK\r\n") = some f ∧ ResultFrom fourParsers f r.loop.frc) ∧
      ((some 0).isSome = true → ∃ f obj, fourFrames.find? (· == text "+R\r\n") = some f ∧
        r.loop.res = some obj ∧ ResponseFrom fourParsers f obj) :=
  receive_demultiplexes rfl fourFrames_framed (by decide) (by decide) (fun _ => by decide)

end ATLink
