import ATLink.Lines

/-!
# Lines of a multi-line response

`Line::acceptImpl` visits the tag of a line and leaves the rest to `APacket::accept`, which visits
the tag again.  Without a tag a line is what its fields make of it.

* `encodeValues` — the values of int and numeric enum fields in decimal, joined with commas.
* `TaggedLineParses` — a tagged line reads its own text.
* `joinLines` — lines with a CRLF behind each.
* `untagged` — a line without a tag that is one line text.

Principal results: `taggedLine_never_parses` — no tagged line reads its own text;
`MultiLineResponse.accepts_lines_iff` — a response of line texts is accepted exactly where as many
lines follow, none of them empty or cut in the middle.
-/

namespace ATLink

open StringView CharConv LowerBound Deserializer

/-! ## Lines with a tag -/

/-- The values in decimal, joined with commas. -/
def encodeValues (vs : List Int) : Text := List.intercalate Constants.Comma (vs.map toChars)

/-- An int, or an enum that is written in decimal. -/
def FieldKind.Decimal : FieldKind → Prop
  | .int => True
  | .numeric _ _ => True
  | .custom _ => False

/-- From the text of the line, `accept` takes exactly this text and stores the values. -/
def TaggedLineParses (tag : Text) (cs : List (FieldKind × Int)) (vs : List Int)
    (pre trailing : Text) : Prop :=
  Line.acceptImpl tag (contents cs)
      (pre ++ (tag ++ encodeValues vs ++ Constants.CrLf ++ trailing)) pre.length =
    some (true, holding (kinds cs) vs,
      (pre ++ (tag ++ encodeValues vs ++ Constants.CrLf)).length)

theorem encodeValues_singleton (v : Int) : encodeValues [v] = toChars v := by
  simp [encodeValues, List.intercalate]

theorem encodeValues_cons_cons (v v' : Int) (vs : List Int) :
    encodeValues (v :: v' :: vs) = toChars v ++ (Constants.Comma ++ encodeValues (v' :: vs)) := by
  simp [encodeValues, List.intercalate]

theorem Values.length_eq {ks : List FieldKind} {vs : List Int} {w : Text} (h : Values ks vs w) :
    vs.length = ks.length := by
  induction h with
  | nil => rfl
  | single => rfl
  | cons _ _ _ _ ih => simp only [List.length_cons, ih]

theorem Decimal.toChars_length_le {k : FieldKind} {t : Text} {v : Int} (hk : k.Decimal)
    (h : k.Spells t v) : (toChars v).length ≤ t.length := by
  cases k with
  | int => exact h.1.toChars_length_le
  | numeric values e => exact h.1.toChars_length_le
  | custom e => exact absurd hk id

/-- No text of decimal fields is shorter than the one that is printed. -/
theorem Values.encode_length_le {ks : List FieldKind} {vs : List Int} {w : Text}
    (h : Values ks vs w) (hks : ∀ k ∈ ks, k.Decimal) : (encodeValues vs).length ≤ w.length := by
  induction h with
  | nil => exact Nat.zero_le _
  | single hb hs =>
    have hlen := Decimal.toChars_length_le (hks _ List.mem_cons_self) hs
    rw [encodeValues_singleton, List.length_append]
    omega
  | @cons _ _ _ v vs b t b' w hb hs hb' hrest ih =>
    have hlen := Decimal.toChars_length_le (hks _ List.mem_cons_self) hs
    have hrec := ih fun k hk => hks k (List.mem_cons_of_mem _ hk)
    cases vs with
    | nil => exact absurd hrest.length_eq (by simp)
    | cons v' vs =>
      rw [encodeValues_cons_cons]
      simp only [List.length_append] at hrec ⊢
      omega

theorem FieldKind.field_injective (k : FieldKind) {v v' : Int} (h : k.field v = k.field v') :
    v = v' := by
  cases k with
  | int => exact ResponseField.int.inj h
  | numeric values e => exact congrArg Enum.value (ResponseField.enum.inj h)
  | custom e => exact congrArg Enum.value (ResponseField.enum.inj h)

theorem holding_injective : ∀ {ks : List FieldKind} {vs vs' : List Int}, vs.length = ks.length →
    vs'.length = ks.length → holding ks vs = holding ks vs' → vs = vs'
  | [], [], [], _, _, _ => rfl
  | k :: ks, v :: vs, v' :: vs', h, h', heq => by
    obtain ⟨hhead, htail⟩ := List.cons.inj heq
    obtain rfl := k.field_injective hhead
    obtain rfl := holding_injective (Nat.succ.inj h) (Nat.succ.inj h') htail
    rfl

/-- **No tagged line reads its own text**: what is left behind the second tag is too short for the
fields. -/
theorem taggedLine_never_parses {tag : Text} (htag : Unspaced tag) (hne : tag ≠ [])
    {cs : List (FieldKind × Int)} (hdecimal : ∀ k ∈ kinds cs, k.Decimal) {vs : List Int}
    (hlen : vs.length = cs.length) (pre trailing : Text) :
    ¬ TaggedLineParses tag cs vs pre trailing := by
  intro hparses
  have hlit : Literal tag := htag.literal hne
  have hsplit : pre ++ (tag ++ encodeValues vs ++ Constants.CrLf ++ trailing) =
      pre ++ ([] ++ tag ++ (encodeValues vs ++ Constants.CrLf ++ trailing)) := by
    simp only [List.nil_append, List.append_assoc]
  have hfirst := visitSequence_literal hlit Blanks.nil pre
    (encodeValues vs ++ Constants.CrLf ++ trailing)
  rw [← hsplit] at hfirst
  unfold TaggedLineParses Line.acceptImpl at hparses
  rw [if_pos (List.length_pos_iff.2 hne), hfirst] at hparses
  obtain ⟨ok, fs, w, r, -, haccept, hpacket⟩ :=
    accept_sound hlit cs (pre ++ tag) (encodeValues vs ++ Constants.CrLf ++ trailing)
  have hinput : pre ++ tag ++ (encodeValues vs ++ Constants.CrLf ++ trailing) =
      pre ++ (tag ++ encodeValues vs ++ Constants.CrLf ++ trailing) := by
    simp only [List.append_assoc]
  rw [hinput] at haccept
  simp only [Option.map_some, List.nil_append, haccept, Option.some.injEq, Prod.mk.injEq] at hparses
  obtain ⟨rfl, hfields, htaken⟩ := hparses
  obtain ⟨vs', ⟨b, w', b', hb, hw', hb', rfl⟩, rfl⟩ := hpacket rfl
  have hkinds : vs.length = (kinds cs).length := by rw [hlen, kinds, List.length_map]
  obtain rfl := holding_injective hkinds hw'.length_eq hfields.symm
  have hshort := hw'.encode_length_le hdecimal
  have hpos := List.length_pos_iff.2 hne
  simp only [List.length_append] at htaken
  omega

/-- `+L:7` with its CRLF is not read by the line with the tag `+L:` and an int. -/
theorem tagged_line_is_refused :
    ¬ TaggedLineParses (text "+L:") [(.int, 0)] [7] [] (text "OK") := by
  intro hparses
  have hrefused : (Line.acceptImpl (text "+L:") (contents [(.int, 0)])
      ([] ++ (text "+L:" ++ encodeValues [7] ++ Constants.CrLf ++ text "OK")) 0).map (·.1) =
        some false := by decide +kernel
  rw [show Line.acceptImpl (text "+L:") (contents [(.int, 0)])
      ([] ++ (text "+L:" ++ encodeValues [7] ++ Constants.CrLf ++ text "OK")) 0 = _ from hparses]
    at hrefused
  cases hrefused

theorem taggedLine_never_parses_int :
    ¬ TaggedLineParses (text "+L:") [(.int, 0)] [7] [] (text "OK") :=
  taggedLine_never_parses (by unfold Unspaced; decide +kernel) (by decide)
    (fun k hk => by rw [List.mem_singleton.1 hk]; trivial) rfl [] (text "OK")

/-! ## Lines without a tag -/

/-- Lines with a CRLF behind each. -/
def joinLines (ls : List Text) : Text := ls.flatMap fun l => l ++ Constants.CrLf

/-- A line without a tag that is one line text. -/
def untagged (buf : Text) : Line := ⟨[], [.line buf]⟩

theorem joinLines_cons (l : Text) (ls : List Text) (r : Text) :
    joinLines (l :: ls) ++ r = l ++ (Constants.CrLf ++ (joinLines ls ++ r)) := by
  simp [joinLines]

/-- The first line of a text, with its CRLF and what stands behind it, if it is ended. -/
theorem exists_firstLine (r : Text) :
    ∃ l z, r = l ++ z ∧ Unbroken l ∧ (z = [] ∨ ∃ y, z = Constants.CrLf ++ y) := by
  rcases unbroken_or_line r with hr | ⟨l, y, hr, hl⟩
  · exact ⟨r, [], (List.append_nil r).symm, hr, Or.inl rfl⟩
  · exact ⟨l, _, hr, hl, Or.inr ⟨y, rfl⟩⟩

/-- Whatever lines a text starts with, the first of them is its first line. -/
theorem joinLines_first {buf l z : Text} {bufs ls : List Text} (hl : Unbroken l)
    (hz : z = [] ∨ ∃ y, z = Constants.CrLf ++ y) (hls : List.Forall₂ LineFits (buf :: bufs) ls)
    (hp : joinLines ls <+: l ++ z) :
    ∃ ls' y, ls = l :: ls' ∧ z = Constants.CrLf ++ y ∧ LineFits buf l ∧
      List.Forall₂ LineFits bufs ls' ∧ joinLines ls' <+: y := by
  obtain ⟨t, ht⟩ := hp
  cases hls with
  | @cons _ l' _ ls' hfits hrest =>
    rw [joinLines_cons] at ht
    have hne : z ≠ [] := by
      rintro rfl
      rw [List.append_nil] at ht
      exact hl ⟨l', joinLines ls' ++ t, by rw [List.append_assoc]; exact ht⟩
    obtain ⟨y, rfl⟩ := hz.resolve_left hne
    obtain ⟨rfl, rfl⟩ := line_unique hfits.2.1 hl ht
    exact ⟨ls', _, rfl, rfl, hfits, hrest, List.prefix_append _ t⟩

/-- The lines are taken one after the other, each where it fits its buffer. -/
theorem acceptLines_outcome : ∀ (bufs : List Text) (pre r : Text), (∀ buf ∈ bufs, buf ≠ []) →
    ∃ ok lines n, acceptLines (pre ++ r) (bufs.map untagged) pre.length = some (ok, lines, n) ∧
      (ok = true ↔ ∃ ls, List.Forall₂ LineFits bufs ls ∧ joinLines ls <+: r) ∧
      ∀ ls, List.Forall₂ LineFits bufs ls → joinLines ls <+: r →
        lines = (List.zipWith overlay ls bufs).map untagged ∧ n = (pre ++ joinLines ls).length
  | [], pre, r, _ => by
    refine ⟨true, [], pre.length, rfl, iff_of_true rfl ⟨[], .nil, List.nil_prefix⟩, fun ls hls _ => ?_⟩
    cases hls
    exact ⟨rfl, by rw [joinLines, List.flatMap_nil, List.append_nil]⟩
  | buf :: bufs, pre, r, hbufs => by
    have hbuf : buf ≠ [] := hbufs buf List.mem_cons_self
    obtain ⟨l, z, rfl, hl, hz⟩ := exists_firstLine r
    have hends : EndsLine z := hz.imp id fun ⟨y, hy⟩ => ⟨y, hy.symm⟩
    obtain ⟨ok, fs, n, haccept, hok, hstored⟩ := acceptWithTerm_lineText pre hl hends hbuf
    have haccept : Line.acceptImpl [] [.line buf] (pre ++ (l ++ z)) pre.length =
        some (ok, fs, n) := haccept
    have hfirst : ∀ ls, List.Forall₂ LineFits (buf :: bufs) ls → joinLines ls <+: l ++ z →
        ∃ ls' y, ls = l :: ls' ∧ z = Constants.CrLf ++ y ∧ LineFits buf l ∧
          List.Forall₂ LineFits bufs ls' ∧ joinLines ls' <+: y :=
      fun ls hls hp => joinLines_first hl hz hls hp
    cases ok with
    | false =>
      have hno : ∀ ls, List.Forall₂ LineFits (buf :: bufs) ls → ¬ joinLines ls <+: l ++ z := by
        intro ls hls hp
        obtain ⟨ls', y, -, rfl, hfits, -⟩ := hfirst ls hls hp
        exact absurd (hok.2 ⟨hfits, crLf_append_ne_nil y⟩) (by decide)
      refine ⟨false, ⟨[], fs⟩ :: bufs.map untagged, n, ?_, ?_, fun ls hls hp => absurd hp (hno ls hls)⟩
      · simp only [List.map_cons, acceptLines, untagged, haccept]
      · exact iff_of_false (by decide) fun ⟨ls, hls, hp⟩ => hno ls hls hp
    | true =>
      obtain ⟨hfits, hne⟩ := hok.1 rfl
      obtain ⟨y, rfl⟩ := hz.resolve_left hne
      obtain ⟨rfl, rfl⟩ := hstored rfl
      obtain ⟨ok, lines, n, hrec, hiff, hexact⟩ :=
        acceptLines_outcome bufs (pre ++ (l ++ Constants.CrLf)) y
          fun b hb => hbufs b (List.mem_cons_of_mem buf hb)
      have hinput : pre ++ (l ++ Constants.CrLf) ++ y = pre ++ (l ++ (Constants.CrLf ++ y)) := by
        simp only [List.append_assoc]
      have hcursor : (pre ++ (l ++ Constants.CrLf)).length = (pre ++ l).length + 2 := by
        simp only [List.length_append]
        rfl
      rw [hinput, hcursor] at hrec
      refine ⟨ok, untagged (overlay l buf) :: lines, n, ?_, ?_, fun ls hls hp => ?_⟩
      · simp only [List.map_cons, acceptLines, untagged, haccept]
        rw [hrec]
        rfl
      · rw [hiff]
        constructor
        · rintro ⟨ls, hls, t, rfl⟩
          exact ⟨l :: ls, .cons hfits hls, t, joinLines_cons l ls t⟩
        · rintro ⟨ls, hls, hp⟩
          obtain ⟨ls', y', -, hy, -, hrest, hp'⟩ := hfirst ls hls hp
          rw [List.append_cancel_left hy]
          exact ⟨ls', hrest, hp'⟩
      · obtain ⟨ls', y', rfl, hy, -, hrest, hp'⟩ := hfirst ls hls hp
        rw [← List.append_cancel_left hy] at hp'
        obtain ⟨rfl, rfl⟩ := hexact ls' hrest hp'
        refine ⟨rfl, ?_⟩
        have hjoin := joinLines_cons l ls' []
        rw [List.append_nil, List.append_nil] at hjoin
        rw [hjoin]
        simp only [List.length_append]
        omega

/-- The optional CRLF, the tag and its CRLF are taken, and the lines are left. -/
theorem MultiLineResponse.acceptImpl_front {tag front : Text} (htag : Unspaced tag) (hne : tag ≠ [])
    (hfront : front = [] ∨ front = Constants.CrLf) (lines : List Line) (r : Text) :
    MultiLineResponse.acceptImpl tag lines (front ++ tag ++ Constants.CrLf ++ r) 0 =
      acceptLines (front ++ tag ++ Constants.CrLf ++ r) lines
        (front ++ tag ++ Constants.CrLf).length := by
  have hunspaced : Unspaced (tag ++ (Constants.CrLf ++ r)) := htag.append hne _
  have hopt : ∃ ok, visitSequence (front ++ tag ++ Constants.CrLf ++ r) Constants.CrLf 0 =
      some (ok, front.length) := by
    rcases hfront with rfl | rfl
    · have habsent := visitSequence_absent Blanks.nil (fun c hc => (hunspaced c hc).1)
        hunspaced.no_crLf []
      simp only [List.nil_append, List.append_nil, List.length_nil, List.append_assoc] at habsent ⊢
      exact ⟨false, habsent⟩
    · have hfound := visitSequence_literal literal_crLf Blanks.nil [] (tag ++ (Constants.CrLf ++ r))
      simp only [List.nil_append, List.length_nil, List.append_assoc] at hfound ⊢
      exact ⟨true, hfound⟩
  have hname := visitSequence_literal (htag.literal hne) Blanks.nil front (Constants.CrLf ++ r)
  have hend := visitSequence_literal literal_crLf Blanks.nil (front ++ tag) r
  simp only [List.nil_append] at hname hend
  obtain ⟨ok, hopt⟩ := hopt
  unfold MultiLineResponse.acceptImpl
  simp only [List.append_assoc] at hopt hname hend ⊢
  rw [hopt]
  simp only [if_pos (List.length_pos_iff.2 hne), hname, hend]

/-- **Line texts are accepted exactly**: from its tag and CRLF on, the response is accepted if and
only if as many lines follow, none of them empty, with nothing but blanks where a buffer is full;
the cursor then stands behind the last CRLF and each buffer holds the start of its line. -/
theorem MultiLineResponse.accepts_lines_iff {tag front : Text} (htag : Unspaced tag) (hne : tag ≠ [])
    (hfront : front = [] ∨ front = Constants.CrLf) {bufs : List Text} (hbufs : ∀ buf ∈ bufs, buf ≠ [])
    (r : Text) :
    ∃ ok lines n, MultiLineResponse.acceptImpl tag (bufs.map untagged)
        (front ++ tag ++ Constants.CrLf ++ r) 0 = some (ok, lines, n) ∧
      (ok = true ↔ ∃ ls, List.Forall₂ LineFits bufs ls ∧ joinLines ls <+: r) ∧
      ∀ ls, List.Forall₂ LineFits bufs ls → joinLines ls <+: r →
        lines = (List.zipWith overlay ls bufs).map untagged ∧
          n = (front ++ tag ++ Constants.CrLf ++ joinLines ls).length := by
  obtain ⟨ok, lines, n, haccept, hiff, hexact⟩ :=
    acceptLines_outcome bufs (front ++ tag ++ Constants.CrLf) r hbufs
  refine ⟨ok, lines, n, ?_, hiff, hexact⟩
  rw [MultiLineResponse.acceptImpl_front htag hne hfront, haccept]

/-- Two lines behind the tag, the first one with blanks where its buffer is full. -/
theorem MultiLineResponse.accepts_lines_iff_two :
    ∃ ok lines n, MultiLineResponse.acceptImpl (text "+R:")
        ([[0, 0, 0], [0, 0, 0, 0]].map untagged)
        (Constants.CrLf ++ text "+R:" ++ Constants.CrLf ++ text "ONE  \r\nTWO\r\nOK") 0 =
          some (ok, lines, n) ∧
      (ok = true ↔ ∃ ls, List.Forall₂ LineFits [[0, 0, 0], [0, 0, 0, 0]] ls ∧
        joinLines ls <+: text "ONE  \r\nTWO\r\nOK") ∧
      ∀ ls, List.Forall₂ LineFits [[0, 0, 0], [0, 0, 0, 0]] ls →
        joinLines ls <+: text "ONE  \r\nTWO\r\nOK" →
        lines = (List.zipWith overlay ls [[0, 0, 0], [0, 0, 0, 0]]).map untagged ∧
          n = (Constants.CrLf ++ text "+R:" ++ Constants.CrLf ++ joinLines ls).length :=
  MultiLineResponse.accepts_lines_iff (by unfold Unspaced; decide +kernel) (by decide) (Or.inr rfl)
    (by decide) (text "ONE  \r\nTWO\r\nOK")

end ATLink
