import ATLink.CursorSafety
import ATLink.EnumLookup
import ATLink.Grammar

/-!
# Responses that stay on one line

A response whose fields are ints, enums and line texts reads an optional CRLF and then one line.
What it makes of the line does not depend on what stands behind the CRLF that ends it.

* `Unbroken` — a text without CRLF; `EndsLine` — what may stand behind it: nothing, or CRLF.
* `InLine` — the fields that are read inside a line.
* `InsideLine` — a cursor with a text without CRLF behind it.
* `lead`, `body` — the blanks and the optional CRLF at the head of the input, and what stands
  behind them.
* `LineResponse` — a response with a tag and fields of this kind.

Principal results: `LineResponse.accept_append` — on an input that holds a whole line the outcome
is the same with any text behind it; `LineResponse.accept_outcome` — any other input is rejected.
-/

namespace ATLink

open StringView CharConv LowerBound Deserializer

/-- A text without CRLF. -/
def Unbroken (l : Text) : Prop := ¬ Constants.CrLf <:+: l

/-- Nothing, or CRLF. -/
def EndsLine (z : Text) : Prop := z = [] ∨ Constants.CrLf <+: z

theorem crLf_eq : Constants.CrLf = [carriageReturn, 10] := by decide

theorem Unbroken.drop {l : Text} (h : Unbroken l) (k : Nat) : Unbroken (l.drop k) :=
  fun hin => h (hin.trans (List.drop_suffix k l).isInfix)

theorem Unbroken.skip {l : Text} (h : Unbroken l) : Unbroken (skip l) :=
  fun hin => h (hin.trans (skipSet_suffix blanks l).isInfix)

theorem EndsLine.head {z : Text} (h : EndsLine z) : ∀ c ∈ z.head?, c = carriageReturn := by
  intro c hc
  rcases h with rfl | ⟨r, rfl⟩
  · cases hc
  · rw [crLf_eq] at hc
    exact (Option.some.inj hc).symm

theorem endsLine_crLf (y : Text) : EndsLine (Constants.CrLf ++ y) := Or.inr (List.prefix_append _ y)

theorem crLf_append_ne_nil (y : Text) : Constants.CrLf ++ y ≠ [] := by simp [crLf_eq]

/-- CRLF stands at the end of a line only. -/
theorem crLf_prefix_iff {l z : Text} (hl : Unbroken l) (hz : EndsLine z) :
    Constants.CrLf <+: l ++ z ↔ l = [] ∧ z ≠ [] := by
  constructor
  · intro h
    cases l with
    | nil =>
      refine ⟨rfl, fun hnil => ?_⟩
      rw [hnil] at h
      exact absurd h (by decide)
    | cons c l =>
      cases l with
      | nil =>
        -- LF would have to start what follows the line
        rw [crLf_eq, List.singleton_append, List.cons_prefix_cons] at h
        obtain ⟨r, hr⟩ := h.2
        have hhead := hz.head 10 (by rw [← hr]; rfl)
        exact absurd hhead (by decide)
      | cons d l =>
        refine absurd ?_ hl
        have hlen : Constants.CrLf.length ≤ (c :: d :: l).length := by
          rw [crLf_eq]
          simp
        exact (List.prefix_of_prefix_length_le h (List.prefix_append _ z) hlen).isInfix
  · rintro ⟨rfl, hne⟩
    exact hz.resolve_left hne

/-- The line ends where the search finds CRLF. -/
theorem find_crLf {l z : Text} (hl : Unbroken l) (hz : EndsLine z) :
    find Constants.CrLf (l ++ z) = if z = [] then none else some l.length := by
  by_cases hne : z = []
  · subst hne
    rw [if_pos rfl, List.append_nil, find_eq_none_iff]
    exact hl
  · rw [if_neg hne, find_eq_some_iff, List.length_append, List.drop_left]
    refine ⟨Nat.le_add_right _ _, hz.resolve_left hne, fun j hj hp => ?_⟩
    rw [List.drop_append_of_le_length (Nat.le_of_lt hj), crLf_prefix_iff (hl.drop j) hz] at hp
    have hlen := congrArg List.length hp.1
    rw [List.length_drop, List.length_nil] at hlen
    omega

theorem crLf_prefix_line_iff {l : Text} (hl : Unbroken l) (y : Text) :
    Constants.CrLf <+: l ++ (Constants.CrLf ++ y) ↔ l = [] := by
  rw [crLf_prefix_iff hl (endsLine_crLf y)]
  exact and_iff_left (crLf_append_ne_nil y)

theorem find_line {l : Text} (hl : Unbroken l) (y : Text) :
    find Constants.CrLf (l ++ (Constants.CrLf ++ y)) = some l.length := by
  rw [find_crLf hl (endsLine_crLf y), if_neg (crLf_append_ne_nil y)]

/-- A text that holds CRLF starts with a line. -/
theorem exists_line {s : Text} (h : Constants.CrLf <:+: s) :
    ∃ l y, s = l ++ (Constants.CrLf ++ y) ∧ Unbroken l := by
  obtain ⟨l, y, hs, hfind⟩ := exists_first_infix h
  refine ⟨l, y, hs, fun hin => ?_⟩
  obtain ⟨a, r, rfl⟩ := hin
  have hmin := (find_eq_some_iff.1 hfind).2.2 a.length (by simp [crLf_eq])
  refine hmin ⟨r ++ (Constants.CrLf ++ y), ?_⟩
  rw [hs]
  simp only [List.append_assoc, List.drop_left]

theorem crLf_infix_line (l y : Text) : Constants.CrLf <:+: l ++ (Constants.CrLf ++ y) :=
  ⟨l, y, List.append_assoc l Constants.CrLf y⟩

/-- A text holds no complete line, or starts with one. -/
theorem unbroken_or_line (x : Text) :
    Unbroken x ∨ ∃ l y, x = l ++ (Constants.CrLf ++ y) ∧ Unbroken l := by
  by_cases h : Constants.CrLf <:+: x
  · exact Or.inr (exists_line h)
  · exact Or.inl h

/-- Two splits of a text behind its first line are the same. -/
theorem line_unique {l l' y y' : Text} (hl : Unbroken l) (hl' : Unbroken l')
    (h : l ++ (Constants.CrLf ++ y) = l' ++ (Constants.CrLf ++ y')) : l = l' ∧ y = y' := by
  have hfind := find_line hl y
  rw [h, find_line hl' y'] at hfind
  obtain ⟨hll, hyy⟩ := List.append_inj h (Option.some.inj hfind).symm
  exact ⟨hll, List.append_cancel_left hyy⟩

/-! ## What a line ends -/

section Ends

variable {l z : Text}

theorem skip_append_of_ne_nil (h : skip l ≠ []) (z : Text) : skip (l ++ z) = skip l ++ z := by
  obtain ⟨b, hl, hb, -⟩ := skip_split l
  have hhead : ∀ c ∈ (skip l ++ z).head?, c ∉ blanks := by
    intro c hc
    rw [List.head?_append_of_ne_nil _ h] at hc
    have hdrop := List.head?_dropWhile_not (fun c => blanks.contains c) l
    have hc' : (l.dropWhile fun c => blanks.contains c).head? = some c := hc
    rw [hc'] at hdrop
    simpa using hdrop
  have hsplit : l ++ z = b ++ (skip l ++ z) := by rw [← List.append_assoc, ← hl]
  rw [hsplit, skip_append hb hhead]

theorem skip_ends (l : Text) (hz : EndsLine z) : skip (l ++ z) = skip l ++ z := by
  by_cases hnil : skip l = []
  · obtain ⟨b, hl, hb, -⟩ := skip_split l
    rw [hnil, List.append_nil] at hl
    rw [hnil, hl, skip_append hb fun c hc => by rw [hz.head c hc]; decide]
    rfl
  · exact skip_append_of_ne_nil hnil z

theorem gap_ends (l : Text) (hz : EndsLine z) : gap (l ++ z) = gap l := by
  unfold gap
  rw [skip_ends l hz, List.length_append, List.length_append]
  omega

/-- A text without CR starts what follows the cursor only if it starts the line. -/
theorem prefix_ends_iff {seq : Text} (hseq : carriageReturn ∉ seq) (hz : EndsLine z) :
    seq <+: l ++ z ↔ seq <+: l := by
  refine ⟨fun h => ?_, fun h => h.trans (List.prefix_append l z)⟩
  rcases Nat.le_total seq.length l.length with hle | hle
  · exact List.prefix_of_prefix_length_le h (List.prefix_append l z) hle
  · obtain ⟨t, rfl⟩ := List.prefix_of_prefix_length_le (List.prefix_append l z) h hle
    cases t with
    | nil => rw [List.append_nil]
    | cons c t =>
      obtain ⟨r, hr⟩ := (List.prefix_append_right_inj l).1 h
      have hc := hz.head c (by rw [← hr]; rfl)
      exact absurd (by simp [hc]) hseq

theorem sequence_parse_ends {seq : Text} (hseq : carriageReturn ∉ seq) (hz : EndsLine z) :
    Sequence.parse seq (l ++ z) = Sequence.parse seq l := by
  classical
  rw [Sequence.parse_eq, Sequence.parse_eq]
  exact if_congr (prefix_ends_iff hseq hz) rfl rfl

theorem fromChars_ends (lo hi : Int) (hz : EndsLine z) :
    fromChars lo hi (l ++ z) = fromChars lo hi l :=
  fromChars_append lo hi fun c hc => by rw [hz.head c hc]; exact ⟨by decide, by decide⟩

theorem custom_parse_ends {T : Type} [DecidableEq T] {c : EnumCustomStringConverter T}
    (hf : PrefixFree c.keys) (hk : ∀ k ∈ c.keys, k ≠ [] ∧ carriageReturn ∉ k) (value : T)
    (hz : EndsLine z) : c.parse value (l ++ z) = c.parse value l := by
  by_cases hstart : ∃ k ∈ c.keys, k <+: l
  · obtain ⟨k, hmem, hkl⟩ := hstart
    obtain ⟨v, hrecord⟩ := EnumCustomStringConverter.mem_keys.1 hmem
    have hne : k ≠ [] := (hk k hmem).1
    have hfound := EnumCustomStringConverter.lookup_complete hf hrecord hne hkl
    have hfound' := EnumCustomStringConverter.lookup_complete hf hrecord hne
      (hkl.trans (List.prefix_append l z))
    rw [EnumCustomStringConverter.parse, EnumCustomStringConverter.parse, hfound, hfound']
  · have hno : ∀ k ∈ c.keys, ¬ k <+: l := fun k hmem hkl => hstart ⟨k, hmem, hkl⟩
    have hno' : ∀ k ∈ c.keys, ¬ k <+: l ++ z := by
      intro k hmem
      rw [prefix_ends_iff (hk k hmem).2 hz]
      exact hno k hmem
    rw [EnumCustomStringConverter.parse_of_no_start hno,
      EnumCustomStringConverter.parse_of_no_start hno']

theorem lineTake_ends (hl : Unbroken l) (hz : EndsLine z) (buf : Text) :
    lineTake (l ++ z) buf = min l.length buf.length := by
  unfold lineTake
  rw [find_crLf hl hz]
  by_cases hnil : z = []
  · rw [if_pos hnil, hnil, List.append_nil]
  · rw [if_neg hnil]

end Ends

/-! ## Visits inside a line -/

/-- A field that is read inside a line.  The strings of a custom enum are told apart, and none of
them reaches over CRLF. -/
def InLine : ResponseField → Prop
  | .int _ => True
  | .quoted _ => False
  | .line _ => True
  | .enum e =>
    match e.traits with
    | .numeric _ => True
    | .custom c => (c.map.map (·.2)).Nodup ∧ PrefixFree c.keys ∧
        ∀ k ∈ c.keys, k ≠ [] ∧ carriageReturn ∉ k

/-- The cursor `n` stands inside the last line of `x`, a line that is not ended. -/
structure InsideLine (x : Text) (n : Nat) : Prop where
  le : n ≤ x.length
  unbroken : Unbroken (x.drop n)

section Visits

variable {x z : Text} {n n' : Nat} {f : ResponseField}

theorem InsideLine.forward (h : InsideLine x n) (hle : n ≤ n') (hle' : n' ≤ x.length) :
    InsideLine x n' := by
  refine ⟨hle', ?_⟩
  have hdrop := h.unbroken.drop (n' - n)
  rwa [List.drop_drop, Nat.add_sub_cancel' hle] at hdrop

theorem InsideLine.split (h : InsideLine x n) :
    ∃ pre l, x = pre ++ l ∧ n = pre.length ∧ Unbroken l := by
  obtain ⟨pre, l, rfl, rfl⟩ := exists_split h.le
  have hl := h.unbroken
  rw [List.drop_left] at hl
  exact ⟨pre, l, rfl, rfl, hl⟩

/-- A visit of a text without CR reads inside the line. -/
theorem visitSequence_ends {seq : Text} (h : InsideLine x n) (hseq : carriageReturn ∉ seq)
    (hz : EndsLine z) : visitSequence (x ++ z) seq n = visitSequence x seq n := by
  obtain ⟨pre, l, rfl, rfl, -⟩ := h.split
  rw [List.append_assoc, visitSequence_eq, visitSequence_eq, skip_ends l hz, gap_ends l hz,
    sequence_parse_ends hseq hz]

theorem visitSequence_inside (h : InsideLine x n) (seq : Text) :
    ∃ ok n', visitSequence x seq n = some (ok, n') ∧ InsideLine x n' := by
  obtain ⟨pre, l, rfl, rfl, -⟩ := h.split
  refine ⟨_, _, visitSequence_eq pre l seq, h.forward (by omega) ?_⟩
  exact (cursor_le_iff pre l _).2 (Sequence.parse_le _ _)

/-- A visit of a field reads inside the line. -/
theorem visitField_ends (h : InsideLine x n) (hf : InLine f) (hz : EndsLine z) :
    visitField (x ++ z) f n = visitField x f n := by
  obtain ⟨pre, l, rfl, rfl, hl⟩ := h.split
  rw [List.append_assoc]
  cases f with
  | int i =>
    simp only [visitField, visitInt_eq, skip_ends l hz, gap_ends l hz, fromChars_ends _ _ hz]
  | quoted storage => exact absurd hf id
  | line buf =>
    have htake : lineTake (l ++ z) buf = lineTake l buf := by
      rw [lineTake_ends hl hz]
      have hnil := lineTake_ends (z := []) hl (Or.inl rfl) buf
      rw [List.append_nil] at hnil
      exact hnil.symm
    simp only [visitField, visitLine_eq, htake, List.take_append_of_le_length (lineTake_le l buf)]
  | enum e =>
    have hparse : e.parse (skip l ++ z) = e.parse (skip l) := by
      unfold Enum.parse
      cases htraits : e.traits with
      | numeric c =>
        simp only [EnumStringConverter.parse, fromChars_ends _ _ hz]
      | custom c =>
        simp only [InLine, htraits] at hf
        simp only [custom_parse_ends hf.2.1 hf.2.2 e.value hz]
    simp only [visitField, visitEnum_eq, skip_ends l hz, gap_ends l hz, hparse]

theorem InLine.fits (hf : InLine f) : Fits x n (.field f) := by
  cases f with
  | int i => trivial
  | quoted storage => exact absurd hf id
  | line buf => trivial
  | enum e =>
    show SpellingFits e _
    unfold SpellingFits
    simp only [InLine] at hf
    split
    · trivial
    · rename_i c htraits
      simp only [htraits] at hf
      intro v k hfound hk
      -- the string looked up by value is the one that matched
      obtain ⟨k', hmem, hstarts⟩ := EnumCustomStringConverter.lookup_sound hfound
      rw [EnumCustomStringConverter.lookupString_of_mem hf.1 hmem] at hk
      cases hk
      exact hstarts.length_le

theorem visitField_inside (h : InsideLine x n) (hf : InLine f) :
    ∃ ok f' n', visitField x f n = some (ok, f', n') ∧ InsideLine x n' := by
  obtain ⟨n', hconsumed, hle⟩ := (consumed_iff x n (.field f) h.le).2 hf.fits
  obtain ⟨⟨ok, f', n''⟩, hvisit, rfl⟩ := Option.map_eq_some_iff.1 hconsumed
  refine ⟨ok, f', n'', hvisit, h.forward ?_ hle⟩
  obtain ⟨pre, l, rfl, rfl, -⟩ := h.split
  exact visitField_advances hvisit

/-! ## The arguments of a packet -/

/-- The arguments are read inside the line. -/
theorem visitWithCommas_ends : ∀ (fs : List ResponseField) {n : Nat}, InsideLine x n →
    (∀ f ∈ fs, InLine f) → EndsLine z →
    visitWithCommas (visitor (x ++ z)) fs n = visitWithCommas (visitor x) fs n
  | [], _, _, _, _ => rfl
  | [f], _, h, hf, hz => by
    simp only [visitWithCommas, visitor_visit]
    rw [visitField_ends h (hf f (by simp)) hz]
  | f :: g :: fs, _, h, hf, hz => by
    obtain ⟨ok, f', n1, hvisit, h1⟩ := visitField_inside h (hf f (by simp))
    obtain ⟨ok', n2, hcomma, h2⟩ := visitSequence_inside h1 Constants.Comma
    have hrec := visitWithCommas_ends (g :: fs) h2
      (fun x hx => hf x (List.mem_cons_of_mem f hx)) hz
    have hvisit' := (visitField_ends h (hf f (by simp)) hz).trans hvisit
    have hcomma' := (visitSequence_ends h1 (by decide) hz).trans hcomma
    cases ok with
    | false => simp only [visitWithCommas, visitor_visit, hvisit, hvisit']
    | true =>
      cases ok' with
      | false =>
        simp only [visitWithCommas, visitor_visit, visitor_visitSequence, hvisit, hvisit', hcomma,
          hcomma']
      | true =>
        simp only [visitWithCommas, visitor_visit, visitor_visitSequence, hvisit, hvisit', hcomma,
          hcomma', hrec]

theorem visitWithCommas_inside : ∀ (fs : List ResponseField) {n : Nat}, InsideLine x n →
    (∀ f ∈ fs, InLine f) →
    ∃ ok fs' n', visitWithCommas (visitor x) fs n = some (ok, fs', n') ∧ InsideLine x n'
  | [], n, h, _ => ⟨true, [], n, rfl, h⟩
  | [f], _, h, hf => by
    obtain ⟨ok, f', n1, hvisit, h1⟩ := visitField_inside h (hf f (by simp))
    exact ⟨ok, [f'], n1, by simp only [visitWithCommas, visitor_visit, hvisit, Option.map_some], h1⟩
  | f :: g :: fs, _, h, hf => by
    obtain ⟨ok, f', n1, hvisit, h1⟩ := visitField_inside h (hf f (by simp))
    obtain ⟨ok', n2, hcomma, h2⟩ := visitSequence_inside h1 Constants.Comma
    obtain ⟨ok'', fs', n3, hrec, h3⟩ := visitWithCommas_inside (g :: fs) h2
      fun x hx => hf x (List.mem_cons_of_mem f hx)
    cases ok with
    | false =>
      refine ⟨false, f' :: g :: fs, n1, ?_, h1⟩
      simp only [visitWithCommas, visitor_visit, hvisit]
    | true =>
      cases ok' with
      | false =>
        refine ⟨false, f' :: g :: fs, n2, ?_, h2⟩
        simp only [visitWithCommas, visitor_visit, visitor_visitSequence, hvisit, hcomma]
      | true =>
        refine ⟨ok'', f' :: fs', n3, ?_, h3⟩
        simp only [visitWithCommas, visitor_visit, visitor_visitSequence, hvisit, hcomma, hrec,
          Option.map_some]

/-! ## The end of a packet -/

/-- CRLF is found where nothing but blanks is left of the line and the line is ended. -/
theorem visitSequence_crLf (h : InsideLine x n) (hz : EndsLine z) :
    visitSequence (x ++ z) Constants.CrLf n =
      if skip (x.drop n) = [] ∧ z ≠ [] then some (true, x.length + 2)
      else some (false, n + gap (x.drop n)) := by
  classical
  obtain ⟨pre, l, rfl, rfl, hl⟩ := h.split
  rw [List.drop_left, List.append_assoc, visitSequence_eq, skip_ends l hz, gap_ends l hz,
    Sequence.parse_eq]
  have hfound := crLf_prefix_iff hl.skip hz
  by_cases hend : skip l = [] ∧ z ≠ []
  · have hgap := gap_add_skip l
    rw [hend.1, List.length_nil, Nat.add_zero] at hgap
    rw [if_pos (hfound.2 hend), if_pos hend, hgap, List.length_append]
    rfl
  · rw [if_neg fun h => hend (hfound.1 h), if_neg hend]
    rfl

theorem skip_eq_nil_iff (l : Text) : skip l = [] ↔ Blanks l := by
  obtain ⟨b, hl, hb, -⟩ := skip_split l
  constructor
  · intro hnil
    rw [hnil, List.append_nil] at hl
    exact hl ▸ hb
  · intro h
    have hnil := skip_append (r := []) h fun c hc => by cases hc
    rwa [List.append_nil] at hnil

/-- The buffer with the start of the line in it. -/
def overlay (l buf : Text) : Text := l.take buf.length ++ buf.drop l.length

/-- A line that a line text takes: not empty, with blanks only where the buffer is full. -/
def LineFits (buf l : Text) : Prop := l ≠ [] ∧ Unbroken l ∧ Blanks (l.drop buf.length)

/-- A line text and CRLF: the line is taken where it fits and is ended. -/
theorem acceptWithTerm_lineText (pre : Text) {l z buf : Text} (hl : Unbroken l) (hz : EndsLine z)
    (hbuf : buf ≠ []) : ∃ ok fs n,
      acceptWithTerm (visitor (pre ++ (l ++ z))) [] Constants.CrLf [.line buf] pre.length =
          some (ok, fs, n) ∧ (ok = true ↔ LineFits buf l ∧ z ≠ []) ∧
        (ok = true → fs = [.line (overlay l buf)] ∧ n = (pre ++ l).length + 2) := by
  have hcap : 0 < buf.length := List.length_pos_iff.2 hbuf
  have htake : lineTake (l ++ z) buf = min l.length buf.length := lineTake_ends hl hz buf
  have hcopied : (l ++ z).take (min l.length buf.length) = l.take buf.length := by
    rw [List.take_append_of_le_length (Nat.min_le_left _ _), Nat.min_comm, ← List.take_take,
      List.take_length]
  have hkept : buf.drop (min l.length buf.length) = buf.drop l.length := by
    rcases Nat.le_total l.length buf.length with hle | hle
    · rw [Nat.min_eq_left hle]
    · rw [Nat.min_eq_right hle, List.drop_length, List.drop_eq_nil_of_le hle]
  have hvisit : visitField (pre ++ (l ++ z)) (.line buf) pre.length =
      some (decide (0 < min l.length buf.length), .line (overlay l buf),
        pre.length + min l.length buf.length) := by
    simp only [visitField, visitLine_eq, htake, Option.map_some, hcopied, hkept, overlay]
  have hinside : InsideLine (pre ++ l) (pre.length + min l.length buf.length) := by
    refine ⟨by rw [List.length_append]; omega, ?_⟩
    rw [← List.drop_drop, List.drop_left]
    exact hl.drop _
  have hrest : skip ((pre ++ l).drop (pre.length + min l.length buf.length)) = [] ↔
      Blanks (l.drop buf.length) := by
    rw [← List.drop_drop, List.drop_left, skip_eq_nil_iff]
    rcases Nat.le_total l.length buf.length with hle | hle
    · rw [Nat.min_eq_left hle, List.drop_length, List.drop_eq_nil_of_le hle]
    · rw [Nat.min_eq_right hle]
  simp only [acceptWithTerm, visitWithCommas, visitor_visit, visitor_visitSequence, hvisit,
    List.length_nil, Nat.lt_irrefl, if_false, Option.map_some]
  by_cases hnil : l = []
  · subst hnil
    refine ⟨false, _, _, rfl, iff_of_false (by decide) fun h => h.1.1 rfl, fun h => by cases h⟩
  · have hpos : 0 < min l.length buf.length := by
      have := List.length_pos_iff.2 hnil
      omega
    simp only [hpos, decide_true, ← List.append_assoc pre l z, visitSequence_crLf hinside hz]
    by_cases hend : skip ((pre ++ l).drop (pre.length + min l.length buf.length)) = [] ∧ z ≠ []
    · rw [if_pos hend]
      exact ⟨true, _, _, rfl, iff_of_true rfl ⟨⟨hnil, hl, hrest.1 hend.1⟩, hend.2⟩,
        fun _ => ⟨rfl, rfl⟩⟩
    · rw [if_neg hend]
      exact ⟨false, _, _, rfl, iff_of_false (by decide) fun h => hend ⟨hrest.2 h.1.2.2, h.2⟩,
        fun h => by cases h⟩

variable {tag : Text} {fs : List ResponseField}

/-- The tag is read inside the line. -/
theorem visitTag_ends (h : InsideLine x n) (htag : carriageReturn ∉ tag) (hz : EndsLine z) :
    ∃ ok n', (if 0 < tag.length then visitSequence (x ++ z) tag n else some (true, n)) =
        some (ok, n') ∧
      (if 0 < tag.length then visitSequence x tag n else some (true, n)) = some (ok, n') ∧
      InsideLine x n' := by
  by_cases hpos : 0 < tag.length
  · obtain ⟨ok, n', hvisit, h'⟩ := visitSequence_inside h tag
    refine ⟨ok, n', ?_, by rw [if_pos hpos, hvisit], h'⟩
    rw [if_pos hpos, visitSequence_ends h htag hz, hvisit]
  · exact ⟨true, n, if_neg hpos, if_neg hpos, h⟩

/-- A packet of such fields ends, and it is accepted only with the CRLF that ends the line. -/
theorem acceptWithTerm_outcome (h : InsideLine x n) (htag : carriageReturn ∉ tag)
    (hf : ∀ f ∈ fs, InLine f) (hz : EndsLine z) : ∃ ok fs' n',
      acceptWithTerm (visitor (x ++ z)) tag Constants.CrLf fs n = some (ok, fs', n') ∧
        (ok = true → z ≠ [] ∧ n' = x.length + 2) := by
  obtain ⟨ok, n1, htag', -, h1⟩ := visitTag_ends h htag hz
  simp only [acceptWithTerm, visitor_visitSequence, htag']
  cases ok with
  | false => exact ⟨false, fs, n1, rfl, fun h => by cases h⟩
  | true =>
    obtain ⟨ok, fs', n2, hfields, h2⟩ := visitWithCommas_inside fs h1 hf
    simp only [visitWithCommas_ends fs h1 hf hz, hfields]
    cases ok with
    | false => exact ⟨false, fs', n2, rfl, fun h => by cases h⟩
    | true =>
      simp only [visitSequence_crLf h2 hz]
      by_cases hend : skip (x.drop n2) = [] ∧ z ≠ []
      · rw [if_pos hend]
        exact ⟨true, fs', x.length + 2, rfl, fun _ => ⟨hend.2, rfl⟩⟩
      · rw [if_neg hend]
        exact ⟨false, fs', _, rfl, fun h => by cases h⟩

/-- What stands behind the CRLF does not matter. -/
theorem acceptWithTerm_ends {z' : Text} (h : InsideLine x n) (htag : carriageReturn ∉ tag)
    (hf : ∀ f ∈ fs, InLine f) (hz : EndsLine z) (hz' : EndsLine z') (hiff : z = [] ↔ z' = []) :
    acceptWithTerm (visitor (x ++ z)) tag Constants.CrLf fs n =
      acceptWithTerm (visitor (x ++ z')) tag Constants.CrLf fs n := by
  obtain ⟨ok, n1, htag1, htag2, h1⟩ := visitTag_ends h htag hz
  obtain ⟨ok', n1', htag1', htag2', -⟩ := visitTag_ends h htag hz'
  rw [htag2] at htag2'
  cases htag2'
  simp only [acceptWithTerm, visitor_visitSequence, htag1, htag1']
  cases ok with
  | false => rfl
  | true =>
    obtain ⟨ok, fs', n2, hfields, h2⟩ := visitWithCommas_inside fs h1 hf
    simp only [visitWithCommas_ends fs h1 hf hz, visitWithCommas_ends fs h1 hf hz', hfields]
    cases ok with
    | false => rfl
    | true => simp only [visitSequence_crLf h2 hz, visitSequence_crLf h2 hz', ne_eq, hiff]

end Visits

/-! ## The head of a response -/

/-- The length of the blanks and the optional CRLF at the head of the input. -/
def lead (x : Text) : Nat := gap x + Sequence.parse Constants.CrLf (skip x)

/-- What stands behind them. -/
def body (x : Text) : Text := x.drop (lead x)

/-- A line is ended behind the head. -/
def HasLine (x : Text) : Prop := Constants.CrLf <:+: body x

theorem lead_le (x : Text) : lead x ≤ x.length := by
  have hgap := gap_add_skip x
  have hle := Sequence.parse_le Constants.CrLf (skip x)
  unfold lead
  omega

theorem acceptImpl_eq (tag : Text) (fs : List ResponseField) (x : Text) :
    Response.acceptImpl tag fs x 0 =
      acceptWithTerm (visitor x) tag Constants.CrLf fs (lead x) := by
  have hvisit := visitSequence_eq [] x Constants.CrLf
  rw [List.nil_append, List.length_nil, Nat.zero_add] at hvisit
  rw [Response.acceptImpl, hvisit, lead]

section Head

variable {x : Text}

theorem body_suffix_skip (x : Text) : body x <:+ skip x := by
  refine List.suffix_of_suffix_length_le (List.drop_suffix _ x) (skipSet_suffix blanks x) ?_
  have hgap := gap_add_skip x
  show (x.drop (lead x)).length ≤ (skip x).length
  rw [List.length_drop, lead]
  omega

/-- More text behind a line leaves the head as it is. -/
theorem HasLine.lead_append (h : HasLine x) (t : Text) : lead (x ++ t) = lead x := by
  classical
  have hlen : Constants.CrLf.length ≤ (skip x).length :=
    (h.trans (body_suffix_skip x).isInfix).length_le
  have hne : skip x ≠ [] := by
    intro hnil
    rw [hnil] at hlen
    exact absurd hlen (by decide)
  have hskip := skip_append_of_ne_nil hne t
  have hgap : gap (x ++ t) = gap x := by
    unfold gap
    rw [hskip, List.length_append, List.length_append]
    omega
  have hfound : Constants.CrLf <+: skip x ++ t ↔ Constants.CrLf <+: skip x :=
    ⟨fun hp => List.prefix_of_prefix_length_le hp (List.prefix_append _ t) hlen,
      fun hp => hp.trans (List.prefix_append _ t)⟩
  unfold lead
  rw [hgap, hskip, Sequence.parse_eq, Sequence.parse_eq]
  simp only [hfound]

/-- The line behind the head, and what stands behind it. -/
theorem HasLine.split (h : HasLine x) :
    ∃ w y, x = w ++ (Constants.CrLf ++ y) ∧ InsideLine w (lead x) := by
  obtain ⟨l, y, hbody, hl⟩ := exists_line h
  refine ⟨x.take (lead x) ++ l, y, ?_, ?_, ?_⟩
  · rw [List.append_assoc, ← hbody, body, List.take_append_drop]
  · rw [List.length_append, List.length_take_of_le (lead_le x)]
    exact Nat.le_add_right _ _
  · have hlen : lead x = (x.take (lead x)).length := (List.length_take_of_le (lead_le x)).symm
    have hdrop : (x.take (lead x) ++ l).drop (lead x) = l := by
      conv_lhs => rw [hlen]
      rw [List.length_take_of_le (lead_le x)]
      exact List.drop_left' hlen.symm
    rw [hdrop]
    exact hl

/-- Without a line the cursor stands inside text that is not ended. -/
theorem insideLine_of_not_hasLine (h : ¬ HasLine x) : InsideLine x (lead x) := ⟨lead_le x, h⟩

end Head

/-! ## Responses of one line -/

/-- A response that parses through `Response::acceptImpl` and stays on one line. -/
structure LineResponse where
  tag : Text
  fields : List ResponseField
  tagInLine : carriageReturn ∉ tag
  inLine : ∀ f ∈ fields, InLine f

namespace LineResponse

variable (r : LineResponse) {x : Text}

def type : ResponseType := Response.type r.tag r.fields

/-- **Text behind the line does not matter.** -/
theorem accept_append (h : HasLine x) (t : Text) :
    r.type.accept r.type.init (x ++ t) 0 = r.type.accept r.type.init x 0 := by
  obtain ⟨w, y, hx, hw⟩ := h.split
  show Response.acceptImpl r.tag r.fields (x ++ t) 0 = Response.acceptImpl r.tag r.fields x 0
  rw [acceptImpl_eq, acceptImpl_eq, h.lead_append]
  generalize lead x = n at hw ⊢
  rw [hx, List.append_assoc, List.append_assoc]
  apply acceptWithTerm_ends hw r.tagInLine r.inLine (endsLine_crLf (y ++ t)) (endsLine_crLf y)
  exact iff_of_false (crLf_append_ne_nil (y ++ t)) (crLf_append_ne_nil y)

/-- The trial of such a response ends.  It is accepted only on an input that holds a whole line. -/
theorem accept_outcome (x : Text) : ∃ ok fs n, r.type.accept r.type.init x 0 = some (ok, fs, n) ∧
    (ok = true → HasLine x ∧ 0 < n ∧ n ≤ x.length) := by
  show ∃ ok fs n, Response.acceptImpl r.tag r.fields x 0 = some (ok, fs, n) ∧ _
  rw [acceptImpl_eq]
  by_cases h : HasLine x
  · obtain ⟨w, y, hx, hw⟩ := h.split
    obtain ⟨ok, fs, n, haccept, hok⟩ :=
      acceptWithTerm_outcome hw r.tagInLine r.inLine (endsLine_crLf y)
    refine ⟨ok, fs, n, by rw [← haccept, ← hx], fun hsuccess => ⟨h, ?_⟩⟩
    have hlen : x.length = w.length + (2 + y.length) := by
      rw [hx, List.length_append, List.length_append]
      rfl
    have hn := (hok hsuccess).2
    omega
  · obtain ⟨ok, fs, n, haccept, hok⟩ := acceptWithTerm_outcome (insideLine_of_not_hasLine h)
      r.tagInLine r.inLine (z := []) (Or.inl rfl)
    rw [List.append_nil] at haccept
    exact ⟨ok, fs, n, haccept, fun hsuccess => absurd rfl (hok hsuccess).1⟩

end LineResponse

end ATLink
