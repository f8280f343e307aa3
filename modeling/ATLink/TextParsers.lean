import ATLink.Lib.Reader
import ATLink.Receive

/-!
# The parsers as functions of the text

* `TextParsers` — the parsers of a command, each a function of the text it is asked about.
* `TextParsers.reader` — the loop of `receive` with these parsers, as a reader of texts; `Progress`
  is what the command still waits for and what it has.
* `Realises` — the virtual functions behave as the parsers on the pieces of a stream, whatever
  was in their objects.

Principal results: `receiveLoop_reads` and `receiveLoop_of_reads` — the loop of `receive` ends
exactly where the reader does, with the values that the reader has found; `realises_ofTypes` — a
response of ints and enums behaves as its parser, and so does every result pack.
-/

namespace ATLink

open FragmentReader

/-- The parsers as functions of the text; `none` is an exception of the dispatcher. -/
structure TextParsers (π β : Type) where
  result : Text → Verdict π
  response : Text → Verdict β
  dispatch : Text → Option Nat

/-- A response that is expected and not there yet, and the values found. -/
structure Progress (π β : Type) where
  missing : Bool
  response : Option β
  result : Option π

/-- The progress at the start of every call. -/
def Progress.start {π β : Type} (expected : Bool) : Progress π β := ⟨expected, none, none⟩

def Progress.Complete {π β : Type} (p : Progress π β) : Prop :=
  p.missing = false ∧ p.result.isSome = true

namespace TextParsers

variable {π β : Type} (T : TextParsers π β)

def urc (x : Text) : Verdict Unit :=
  match T.dispatch x with
  | none => .throws
  | some n => if 0 < n then .accepts () n else .rejects

def missingResponse (p : Progress π β) (x : Text) : Verdict (Progress π β) :=
  if p.missing then (T.response x).map fun v => { p with missing := false, response := some v }
  else .rejects

def missingResult (p : Progress π β) (x : Text) : Verdict (Progress π β) :=
  if p.result.isSome then .rejects else (T.result x).map fun v => { p with result := some v }

/-- Response, result and URC, in this order. -/
def attempt (p : Progress π β) (x : Text) : Verdict (Progress π β) :=
  (T.missingResponse p x).orElse ((T.missingResult p x).orElse ((T.urc x).map fun _ => p))

def reader : Reader Byte (Progress π β) where
  step p x := (T.attempt p x).within x.length
  complete := Progress.Complete
  fits h := (Verdict.within_eq_accepts.1 h).2
  keeps := by
    rintro p p' x n ⟨hmissing, hresult⟩ h
    have h := (Verdict.within_eq_accepts.1 h).1
    simp only [attempt, missingResponse, missingResult, hmissing, hresult, Bool.false_eq_true,
      if_true, if_false, Verdict.orElse] at h
    cases hurc : T.urc x with
    | throws => rw [hurc] at h; cases h
    | rejects => rw [hurc] at h; cases h
    | accepts u m => rw [hurc] at h; cases h; rfl

end TextParsers

/-- The outcome of `accept`, with the value that the object shows. -/
def verdict {α β : Type} (val : α → β) : Option (Bool × α × Nat) → Verdict β
  | none => .throws
  | some (false, _, _) => .rejects
  | some (true, obj, n) => .accepts (val obj) n

section Refinement

variable {π ρ δ β : Type}

/-- On every piece of the stream the virtual functions behave as the parsers of the text, for any
earlier contents of their objects.  `C` holds of the objects of the response's class, `val` is
what a caller reads off such an object. -/
structure Realises (V : Virtuals π ρ δ) (T : TextParsers π β) (C : ρ → Prop) (val : ρ → β)
    (stream : Text) : Prop where
  result : ∀ frc x, x <:+: stream → verdict id (V.acceptResult frc x) = T.result x
  response : ∀ res x, C res → x <:+: stream → verdict val (V.acceptResponse res x) = T.response x
  keeps : ∀ res x ok res' n, C res → x <:+: stream → V.acceptResponse res x = some (ok, res', n) →
    C res'
  dispatch : ∀ urcs x, x <:+: stream → (V.dispatch urcs x).map (·.1) = T.dispatch x

/-- The locals of `receive` show the progress. -/
structure Represents (C : ρ → Prop) (val : ρ → β) (expected : Bool) (s : RxLoop π ρ δ)
    (p : Progress π β) : Prop where
  object : s.res.isSome = expected
  asked : p.missing = true → expected = true
  haveResponse : s.haveResponse = !p.missing
  haveResult : s.haveResult = p.result.isSome
  response : p.missing = false → s.res.map val = p.response
  result : s.haveResult = true → some s.frc = p.result
  inClass : ∀ obj, s.res = some obj → C obj

variable {V : Virtuals π ρ δ} {T : TextParsers π β} {C : ρ → Prop} {val : ρ → β} {stream : Text}
  {expected : Bool} {s s' t : RxLoop π ρ δ} {p q : Progress π β}

theorem NoResponse.refines (hT : Realises V T C val stream) (hs : Represents C val expected s p)
    (hin : s.input <:+: stream) {res' : Option ρ} (h : NoResponse V s.haveResponse s.res s.input res') :
    T.missingResponse p s.input = .rejects ∧ Represents C val expected { s with res := res' } p := by
  cases h with
  | taken hflag =>
    have hmissing : p.missing = false := by simpa [hs.haveResponse] using hflag
    exact ⟨by rw [TextParsers.missingResponse, if_neg (by simp [hmissing])], hs⟩
  | absent hres =>
    have hexpected : expected = false := by rw [← hs.object, hres]; rfl
    have hmissing : p.missing = false := by
      rw [Bool.eq_false_iff]
      intro hm
      rw [hs.asked hm] at hexpected
      cases hexpected
    exact ⟨by rw [TextParsers.missingResponse, if_neg (by simp [hmissing])], by rw [← hres]; exact hs⟩
  | @rejects obj res' n hflag hres hreject =>
    have hmissing : p.missing = true := by simpa [hs.haveResponse] using hflag
    have hC := hs.inClass obj hres
    have hverdict : T.response s.input = .rejects := by
      rw [← hT.response obj s.input hC hin, hreject]
      rfl
    refine ⟨by rw [TextParsers.missingResponse, if_pos hmissing, hverdict]; rfl,
      ⟨?_, hs.asked, hs.haveResponse, hs.haveResult, fun hm => ?_, hs.result, ?_⟩⟩
    · rw [← hs.object, hres]
      rfl
    · rw [hmissing] at hm
      cases hm
    · rintro obj' ⟨⟩
      exact hT.keeps obj s.input false res' n hC hin hreject

theorem NoResult.refines (hT : Realises V T C val stream) (hs : Represents C val expected s p)
    (hin : s.input <:+: stream) {frc' : π} (h : NoResult V s.haveResult s.frc s.input frc') :
    T.missingResult p s.input = .rejects ∧ Represents C val expected { s with frc := frc' } p := by
  cases h with
  | taken hflag =>
    exact ⟨by rw [TextParsers.missingResult, if_pos (by rw [← hs.haveResult, hflag])], hs⟩
  | rejects hflag hreject =>
    have hverdict : T.result s.input = .rejects := by
      rw [← hT.result s.frc s.input hin, hreject]
      rfl
    refine ⟨?_, ⟨hs.object, hs.asked, hs.haveResponse, hs.haveResult, hs.response, fun hr => ?_,
      hs.inClass⟩⟩
    · rw [TextParsers.missingResult, if_neg (by rw [← hs.haveResult, hflag]; decide), hverdict]
      rfl
    · rw [hflag] at hr
      cases hr

/-- **One iteration refines one step of the reader.** -/
theorem Turn.refines (hT : Realises V T C val stream) (hs : Represents C val expected s p)
    (hin : s.input <:+: stream) {more : Bool} (h : Turn V s more s') :
    ∃ p', Represents C val expected s' p' ∧
      ((more = true ∧ ∃ n, T.reader.step p s.input = .accepts p' n ∧ s'.input = s.input.drop n) ∨
        (more = false ∧ p' = p ∧ T.reader.step p s.input = .rejects ∧ s'.input = s.input)) := by
  cases h with
  | @response res res' n hflag hres haccept hn =>
    have hmissing : p.missing = true := by simpa [hs.haveResponse] using hflag
    have hC := hs.inClass res hres
    have hverdict : T.response s.input = .accepts (val res') n := by
      rw [← hT.response res s.input hC hin, haccept]
      rfl
    refine ⟨{ p with missing := false, response := some (val res') },
      ⟨by rw [← hs.object, hres]; rfl, fun hm => (by cases hm), rfl, hs.haveResult, fun _ => rfl,
        hs.result, ?_⟩, Or.inl ⟨rfl, n, ?_, rfl⟩⟩
    · rintro obj ⟨⟩
      exact hT.keeps res s.input true res' n hC hin haccept
    · refine Verdict.within_eq_accepts.2 ⟨?_, hn⟩
      rw [TextParsers.attempt, TextParsers.missingResponse, if_pos hmissing, hverdict]
      rfl
  | @result res' frc n hno hflag haccept hn =>
    obtain ⟨hresponse, hs'⟩ := hno.refines hT hs hin
    have hverdict : T.result s.input = .accepts frc n := by
      rw [← hT.result s.frc s.input hin, haccept]
      rfl
    refine ⟨{ p with result := some frc },
      ⟨hs'.object, hs'.asked, hs'.haveResponse, rfl, hs'.response, fun _ => rfl, hs'.inClass⟩,
      Or.inl ⟨rfl, n, ?_, rfl⟩⟩
    refine Verdict.within_eq_accepts.2 ⟨?_, hn⟩
    rw [TextParsers.attempt, hresponse, TextParsers.missingResult,
      if_neg (by rw [← hs.haveResult, hflag]; decide), hverdict]
    rfl
  | @urc res' frc urcs n hno hno' hdispatch hpos hn =>
    obtain ⟨hresponse, hs'⟩ := hno.refines hT hs hin
    obtain ⟨hresult, hs''⟩ := NoResult.refines hT hs' hin hno'
    have hcount : T.dispatch s.input = some n := by
      rw [← hT.dispatch s.urcs s.input hin, hdispatch]
      rfl
    refine ⟨p, ⟨hs''.object, hs''.asked, hs''.haveResponse, hs''.haveResult, hs''.response,
      hs''.result, hs''.inClass⟩, Or.inl ⟨rfl, n, ?_, rfl⟩⟩
    refine Verdict.within_eq_accepts.2 ⟨?_, hn⟩
    have hurc : T.urc s.input = .accepts () n := by
      simp only [TextParsers.urc, hcount, hpos, if_true]
    rw [TextParsers.attempt, hresponse, hresult, hurc]
    rfl
  | @last res' frc urcs hno hno' hdispatch =>
    obtain ⟨hresponse, hs'⟩ := hno.refines hT hs hin
    obtain ⟨hresult, hs''⟩ := NoResult.refines hT hs' hin hno'
    have hcount : T.dispatch s.input = some 0 := by
      rw [← hT.dispatch s.urcs s.input hin, hdispatch]
      rfl
    refine ⟨p, ⟨hs''.object, hs''.asked, hs''.haveResponse, hs''.haveResult, hs''.response,
      hs''.result, hs''.inClass⟩, Or.inr ⟨rfl, rfl, ?_, rfl⟩⟩
    refine Verdict.within_eq_rejects.2 ?_
    have hurc : T.urc s.input = .rejects := by
      simp only [TextParsers.urc, hcount, Nat.lt_irrefl, if_false]
    rw [TextParsers.attempt, hresponse, hresult, hurc]
    rfl

/-- A parser that throws nothing and consumes at most the input. -/
theorem settles {α : Type} {f : α → β} {r : Option (Bool × α × Nat)} {n : Nat}
    (h : (verdict f r).within n ≠ .throws) :
    ∃ ok obj k, r = some (ok, obj, k) ∧ (ok = true → k ≤ n) := by
  rcases r with _ | ⟨_ | _, obj, k⟩
  · exact absurd rfl h
  · exact ⟨false, obj, k, rfl, fun h => by cases h⟩
  · refine ⟨true, obj, k, rfl, fun _ => Nat.le_of_not_lt fun hk => h ?_⟩
    exact if_neg (Nat.not_le_of_lt hk)

/-- Where the reader does not throw, neither does the iteration. -/
theorem exists_turn_of_step (hT : Realises V T C val stream) (hs : Represents C val expected s p)
    (hin : s.input <:+: stream) (h : T.reader.step p s.input ≠ .throws) :
    ∃ more s', Turn V s more s' := by
  have hstep : (T.attempt p s.input).within s.input.length ≠ .throws := h
  refine exists_turn (fun obj hflag hres => settles (f := val) fun hthrows => hstep ?_)
    (fun res' hno hflag => settles (f := id) fun hthrows => hstep ?_) (fun res' frc' hno hno' => ?_)
  · have hmissing : p.missing = true := by simpa [hs.haveResponse] using hflag
    rw [hT.response obj s.input (hs.inClass obj hres) hin] at hthrows
    rw [TextParsers.attempt, TextParsers.missingResponse, if_pos hmissing]
    exact Verdict.orElse_throws _ (Verdict.map_throws _ hthrows)
  · rw [hT.result s.frc s.input hin] at hthrows
    rw [TextParsers.attempt, (hno.refines hT hs hin).1, Verdict.rejects_orElse,
      TextParsers.missingResult, if_neg (by rw [← hs.haveResult, hflag]; decide)]
    exact Verdict.orElse_throws _ (Verdict.map_throws _ hthrows)
  · rw [TextParsers.attempt, (hno.refines hT hs hin).1, (hno'.refines hT hs hin).1] at hstep
    have hdispatch := hT.dispatch s.urcs s.input hin
    cases hd : V.dispatch s.urcs s.input with
    | none =>
      rw [hd, Option.map_none] at hdispatch
      refine absurd (Verdict.map_throws _ ?_) hstep
      simp only [TextParsers.urc, ← hdispatch, Verdict.within]
    | some r =>
      rw [hd, Option.map_some] at hdispatch
      refine ⟨r.1, r.2, rfl, Nat.le_of_not_lt fun hn => hstep (Verdict.map_throws _ ?_)⟩
      simp only [TextParsers.urc, ← hdispatch, Nat.zero_lt_of_lt hn, if_true, Verdict.within,
        if_neg (Nat.not_le_of_lt hn)]

/-- The iterations of a loop that ends are a reading. -/
theorem Runs.reads (hT : Realises V T C val stream) (h : Runs V s t)
    (hs : Represents C val expected s p) (hin : s.input <:+: stream) :
    ∃ q, T.reader.Reads p s.input q t.input ∧ Represents C val expected t q := by
  induction h generalizing p with
  | last hturn =>
    obtain ⟨p', ht, ⟨hmore, -⟩ | ⟨-, rfl, hstep, hinput⟩⟩ := hturn.refines hT hs hin
    · cases hmore
    · exact ⟨p', by rw [hinput]; exact .done hstep, ht⟩
  | turn hturn _ ih =>
    obtain ⟨p', hs', ⟨-, n, hstep, hinput⟩ | ⟨hmore, -⟩⟩ := hturn.refines hT hs hin
    · obtain ⟨q, hread, ht⟩ := ih hs' (by rw [hinput]; exact (List.drop_suffix _ _).isInfix.trans hin)
      rw [hinput] at hread
      exact ⟨q, .next hstep hread, ht⟩
    · cases hmore

/-- A reading is the iterations of a loop that ends. -/
theorem runs_of_reads (hT : Realises V T C val stream) {x y : Text} (h : T.reader.Reads p x q y)
    (hs : Represents C val expected s p) (hx : s.input = x) (hin : x <:+: stream) :
    ∃ t, Runs V s t ∧ Represents C val expected t q ∧ t.input = y := by
  induction h generalizing s with
  | done hstep =>
    subst hx
    obtain ⟨more, t, hturn⟩ := exists_turn_of_step hT hs hin (by rw [hstep]; simp)
    obtain ⟨p', ht, ⟨-, n, hstep', -⟩ | ⟨rfl, rfl, -, hinput⟩⟩ := hturn.refines hT hs hin
    · rw [hstep] at hstep'
      cases hstep'
    · exact ⟨t, .last hturn, ht, hinput⟩
  | next hstep _ ih =>
    subst hx
    obtain ⟨more, s', hturn⟩ := exists_turn_of_step hT hs hin (by rw [hstep]; simp)
    obtain ⟨p', hs', ⟨rfl, n, hstep', hinput⟩ | ⟨-, -, hstep', -⟩⟩ := hturn.refines hT hs hin
    · rw [hstep] at hstep'
      cases hstep'
      obtain ⟨t, hruns, ht, hy⟩ := ih hs' hinput ((List.drop_suffix _ _).isInfix.trans hin)
      exact ⟨t, .turn hturn hruns, ht, hy⟩
    · rw [hstep] at hstep'
      cases hstep'

/-- The attempt before the loop changes nothing: the loop of `receive` is a reading. -/
theorem receiveLoop_reads (hT : Realises V T C val stream) (h : receiveLoop V s = .ok t)
    (hs : Represents C val expected s p) (hin : s.input <:+: stream) :
    ∃ q, T.reader.Reads p s.input q t.input ∧ Represents C val expected t q := by
  obtain ⟨res', rfl | hno, hruns⟩ := receiveLoop_runs h
  · exact hruns.reads hT hs hin
  · obtain ⟨q, hread, ht⟩ := hruns.reads hT (hno.refines hT hs hin).2 hin
    exact ⟨q, hread, ht⟩

theorem receiveLoop_of_reads (hT : Realises V T C val stream) {y : Text}
    (h : T.reader.Reads p s.input q y) (hs : Represents C val expected s p) (hin : s.input <:+: stream) :
    ∃ t, receiveLoop V s = .ok t ∧ Represents C val expected t q ∧ t.input = y := by
  have hstep : T.reader.step p s.input ≠ .throws := by
    cases h with
    | done hstep => rw [hstep]; simp
    | next hstep _ => rw [hstep]; simp
  obtain ⟨more, s', hturn⟩ := exists_turn_of_step hT hs hin hstep
  obtain ⟨res', hres, hloop⟩ := receiveLoop_of_turn hturn
  have hs' : Represents C val expected { s with res := res' } p := by
    rcases hres with rfl | hno
    · exact hs
    · exact (hno.refines hT hs hin).2
  obtain ⟨t, hruns, ht, hy⟩ := runs_of_reads hT h hs' rfl hin
  exact ⟨t, hloop.trans (rxLoop_iff.2 hruns), ht, hy⟩

end Refinement

/-! ## Responses of ints and enums -/

/-- The type of a field whose value an accepting visit always overwrites. -/
def ResponseField.shape : ResponseField → Option (Option (EnumTraits Int))
  | .int _ => some none
  | .enum e => some (some e.traits)
  | .quoted _ => none
  | .line _ => none

theorem verdict_id_cases {α : Type} {r r' : Option (Bool × α × Nat)}
    (h : verdict id r = verdict id r') :
    (r = none ∧ r' = none) ∨ (∃ a b n m, r = some (false, a, n) ∧ r' = some (false, b, m)) ∨
      ∃ a n, r = some (true, a, n) ∧ r' = some (true, a, n) := by
  rcases r with _ | ⟨_ | _, a, n⟩ <;> rcases r' with _ | ⟨_ | _, b, m⟩ <;> simp_all [verdict]

namespace Deserializer

theorem visitField_shape {input : Text} {f f' : ResponseField} {length n : Nat} {ok : Bool}
    (h : visitField input f length = some (ok, f', n)) : f'.shape = f.shape := by
  cases f with
  | int i =>
    obtain ⟨r, -, hr⟩ := Option.map_eq_some_iff.1 h
    cases hr
    rfl
  | quoted storage =>
    obtain ⟨r, -, hr⟩ := Option.map_eq_some_iff.1 h
    cases hr
    rfl
  | line buf =>
    obtain ⟨r, -, hr⟩ := Option.map_eq_some_iff.1 h
    cases hr
    rfl
  | enum e =>
    obtain ⟨⟨ok, e', m⟩, hvisit, hr⟩ := Option.map_eq_some_iff.1 h
    cases hr
    unfold visitEnum at hvisit
    obtain ⟨length', -, hvisit⟩ := Option.bind_eq_some_iff.1 hvisit
    obtain ⟨rest, -, hvisit⟩ := Option.bind_eq_some_iff.1 hvisit
    cases hvisit
    exact congrArg (fun traits => some (some traits)) (Enum.parse_traits e rest)

/-- The value before does not matter where an enum is parsed. -/
theorem enum_parse_eq {e e' : AEnum} (h : e.traits = e'.traits) (x : Text) :
    (e.parse x).1 = (e'.parse x).1 ∧ (0 < (e.parse x).1 → e.parse x = e'.parse x) := by
  obtain ⟨traits, value⟩ := e
  obtain ⟨traits', value'⟩ := e'
  subst h
  cases traits with
  | numeric c =>
    simp only [Enum.parse, EnumStringConverter.parse]
    split
    · split <;> simp
    · simp
  | custom c =>
    simp only [Enum.parse, EnumCustomStringConverter.parse]
    split <;> simp

/-- **A visit overwrites** an int or an enum: its outcome does not depend on the value before. -/
theorem visitField_overwrites {f g : ResponseField} (hshape : f.shape = g.shape)
    (hsome : f.shape.isSome = true) (input : Text) (length : Nat) :
    verdict id (visitField input f length) = verdict id (visitField input g length) := by
  cases f with
  | int i =>
    cases g with
    | int j =>
      unfold visitField visitInt
      cases skipWhitespaces input length with
      | none => rfl
      | some length =>
        simp only [Option.bind_eq_bind, Option.bind_some]
        split <;> rfl
    | quoted => cases hshape
    | line => cases hshape
    | enum e => cases hshape
  | enum e =>
    cases g with
    | enum e' =>
      have htraits : e.traits = e'.traits := by simpa [ResponseField.shape] using hshape
      unfold visitField visitEnum
      cases skipWhitespaces input length with
      | none => rfl
      | some length =>
        simp only [Option.bind_eq_bind, Option.bind_some]
        cases StringView.substr input length with
        | none => rfl
        | some rest =>
          obtain ⟨hcount, hsame⟩ := enum_parse_eq htraits rest
          simp only [Option.bind_some]
          by_cases hpos : 0 < (e.parse rest).1
          · rw [hsame hpos]
          · simp [verdict, ← hcount, hpos]
    | int => cases hshape
    | quoted => cases hshape
    | line => cases hshape
  | quoted => cases hsome
  | line => cases hsome

theorem visitWithCommas_shape {input : Text} : ∀ {fs fs' : List ResponseField} {length n : Nat}
    {ok : Bool}, visitWithCommas (visitor input) fs length = some (ok, fs', n) →
      fs'.map (·.shape) = fs.map (·.shape)
  | [], _, _, _, _, h => by cases h; rfl
  | [f], _, _, _, _, h => by
    obtain ⟨⟨ok, f', n⟩, hf, hr⟩ := Option.map_eq_some_iff.1 h
    cases hr
    simp [visitField_shape hf]
  | f :: f₂ :: fs, _, _, _, _, h => by
    rw [visitWithCommas] at h
    split at h
    · cases h
    · rename_i f' n hf
      cases h
      simp [visitField_shape hf]
    · rename_i f' n hf
      split at h
      · cases h
      · cases h
        simp [visitField_shape hf]
      · rename_i n' hcomma
        obtain ⟨⟨ok, fs', n⟩, hfs, hr⟩ := Option.map_eq_some_iff.1 h
        cases hr
        simp [visitField_shape hf, visitWithCommas_shape hfs]

theorem visitWithCommas_overwrites (input : Text) : ∀ (fs gs : List ResponseField) (length : Nat),
    fs.map (·.shape) = gs.map (·.shape) → (∀ f ∈ fs, f.shape.isSome = true) →
      verdict id (visitWithCommas (visitor input) fs length) =
        verdict id (visitWithCommas (visitor input) gs length)
  | [], [], _, _, _ => rfl
  | [], _ :: _, _, h, _ => by cases h
  | _ :: _, [], _, h, _ => by cases h
  | [_], _ :: _ :: _, _, h, _ => by simp at h
  | _ :: _ :: _, [_], _, h, _ => by simp at h
  | [f], [g], length, h, hsome => by
    have hf := visitField_overwrites (List.cons.inj h).1 (hsome f (by simp)) input length
    simp only [visitWithCommas, visitor_visit]
    rcases verdict_id_cases hf with ⟨hf, hg⟩ | ⟨a, b, n, m, hf, hg⟩ | ⟨a, n, hf, hg⟩
    · rw [hf, hg]
    · rw [hf, hg]
      rfl
    · rw [hf, hg]
  | f :: f₂ :: fs, g :: g₂ :: gs, length, h, hsome => by
    have hf := visitField_overwrites (List.cons.inj h).1 (hsome f (by simp)) input length
    simp only [visitWithCommas, visitor_visit]
    rcases verdict_id_cases hf with ⟨hf, hg⟩ | ⟨a, b, n, m, hf, hg⟩ | ⟨a, n, hf, hg⟩
    · rw [hf, hg]
    · rw [hf, hg]
      rfl
    · rw [hf, hg]
      simp only
      split
      · rfl
      · rfl
      · rename_i length' hcomma
        have hrest := visitWithCommas_overwrites input (f₂ :: fs) (g₂ :: gs) length'
          (List.cons.inj h).2 fun x hx => hsome x (List.mem_cons_of_mem f hx)
        rcases verdict_id_cases hrest with ⟨hfs, hgs⟩ | ⟨a, b, n, m, hfs, hgs⟩ | ⟨a, n, hfs, hgs⟩
        · rw [hfs, hgs]
        · rw [hfs, hgs]
          rfl
        · rw [hfs, hgs]

end Deserializer

theorem Response.acceptImpl_shape {tag input : Text} {fs fs' : List ResponseField} {length n : Nat}
    {ok : Bool} (h : Response.acceptImpl tag fs input length = some (ok, fs', n)) :
    fs'.map (·.shape) = fs.map (·.shape) := by
  unfold Response.acceptImpl acceptWithTerm at h
  split at h
  · cases h
  · split at h
    · cases h
    · cases h
      rfl
    · split at h
      · cases h
      · rename_i hfs
        cases h
        exact Deserializer.visitWithCommas_shape hfs
      · rename_i hfs
        obtain ⟨r, -, hr⟩ := Option.map_eq_some_iff.1 h
        cases hr
        exact Deserializer.visitWithCommas_shape hfs

theorem Response.acceptImpl_overwrites {fs gs : List ResponseField}
    (hshape : fs.map (·.shape) = gs.map (·.shape)) (hsome : ∀ f ∈ fs, f.shape.isSome = true)
    (tag input : Text) (length : Nat) :
    verdict id (Response.acceptImpl tag fs input length) =
      verdict id (Response.acceptImpl tag gs input length) := by
  unfold Response.acceptImpl acceptWithTerm
  split
  · rfl
  · split
    · rfl
    · rfl
    · rename_i length' htag
      have hfields := Deserializer.visitWithCommas_overwrites input fs gs length' hshape hsome
      rcases verdict_id_cases hfields with ⟨hfs, hgs⟩ | ⟨a, b, n, m, hfs, hgs⟩ | ⟨a, n, hfs, hgs⟩
      · rw [hfs, hgs]
      · rw [hfs, hgs]
        rfl
      · rw [hfs, hgs]

/-- The parsers of a command with the result pack `Rs` and the response `R`. -/
def TextParsers.ofTypes (Rs : List ResponseType) (R : ResponseType) (dispatch : Text → Option Nat) :
    TextParsers (ResponsePack.Variant Rs) R.Obj where
  result x := verdict id (ResponsePack.accept Rs none x 0)
  response x := verdict id (R.accept R.init x 0)
  dispatch := dispatch

/-- **The driver's commands are realised**: any result pack, any response of ints and enums, and
a dispatcher that is a function of its input. -/
theorem realises_ofTypes {δ : Type} {dispatch : δ → Text → Option (Nat × δ)} {d : Text → Option Nat}
    (hd : ∀ urcs x, (dispatch urcs x).map (·.1) = d x) (Rs : List ResponseType) (tag : Text)
    {fields : List ResponseField} (hsome : ∀ f ∈ fields, f.shape.isSome = true) (stream : Text) :
    Realises (Virtuals.ofTypes Rs (Response.type tag fields) dispatch)
      (TextParsers.ofTypes Rs (Response.type tag fields) d)
      (fun obj => fields.map (·.shape) = obj.map (·.shape)) id stream where
  result value x _ := by
    simp only [Virtuals.ofTypes, TextParsers.ofTypes, ResponsePack.accept]
    rcases ResponsePack.tryAll Rs x 0 with _ | ⟨_ | v, n⟩ <;> rfl
  response obj x hC _ := (Response.acceptImpl_overwrites hC hsome tag x 0).symm
  keeps obj x ok obj' n hC _ h := hC.trans (Response.acceptImpl_shape h).symm
  dispatch urcs x _ := hd urcs x

end ATLink
