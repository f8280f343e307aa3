import ATLink.ResponsePack

/-!
# The grammar of a response

* `Spells` — the texts of a field, by its kind: numerals in range, numerals of declared
  enumerators, keys.
* `Values` — the fields in order, blanks around each, commas between them.
* `Packet` — `B tag B v1 B , … B vn B CRLF`, the language of `APacket::accept`.
* `Reply` — `B [CRLF]` in front of it, the language of `Response::acceptImpl`.

Principal result: `Response.acceptImpl_iff` — a response is accepted exactly when the input
starts with a text of its grammar; the cursor then stands behind that text and the fields hold
the values spelled in it.
-/

namespace ATLink

open StringView CharConv LowerBound Deserializer

/-! ## Kinds of fields -/

/-- A custom-string enum whose keys can be told apart in a text: they are not empty, start with
no blank and none starts another one. -/
structure CustomEnum where
  converter : EnumCustomStringConverter Int
  distinct : (converter.map.map (·.2)).Nodup
  prefixFree : PrefixFree (converter.map.map (·.1))
  keys : ∀ k v, (k, v) ∈ converter.map → k ≠ [] ∧ ∀ c ∈ k.head?, c ∉ blanks

inductive FieldKind where
  | int
  | numeric (values : List Int) (e : NumericEnum values)
  | custom (e : CustomEnum)

namespace FieldKind

/-- The field of that kind that holds `v`. -/
def field : FieldKind → Int → ResponseField
  | .int, v => .int v
  | .numeric _ e, v => e.field v
  | .custom e, v => .enum ⟨.custom e.converter, v⟩

/-- `t` is a text of the value `v`. -/
def Spells : FieldKind → Text → Int → Prop
  | .int, t, v => IsNumeral t v ∧ INT_MIN ≤ v ∧ v ≤ INT_MAX
  | .numeric values _, t, v => IsNumeral t v ∧ v ∈ values
  | .custom e, t, v => (t, v) ∈ e.converter.map

end FieldKind

/-! ## The grammar -/

/-- A possibly empty run of blanks. -/
def Blanks (b : Text) : Prop := ∀ c ∈ b, c ∈ blanks

/-- `B v1 B , B v2 … B vn`. -/
inductive Values : List FieldKind → List Int → Text → Prop where
  | nil : Values [] [] []
  | single {k : FieldKind} {v : Int} {b t : Text} : Blanks b → k.Spells t v → Values [k] [v] (b ++ t)
  | cons {k k' : FieldKind} {ks : List FieldKind} {v : Int} {vs : List Int} {b t b' w : Text} :
      Blanks b → k.Spells t v → Blanks b' → Values (k' :: ks) vs w →
      Values (k :: k' :: ks) (v :: vs) (b ++ t ++ (b' ++ Constants.Comma) ++ w)

/-- `B tag B v1 B , … B vn B CRLF`. -/
def Packet (tag : Text) (ks : List FieldKind) (vs : List Int) (p : Text) : Prop :=
  ∃ b w b', Blanks b ∧ Values ks vs w ∧ Blanks b' ∧ p = b ++ tag ++ w ++ (b' ++ Constants.CrLf)

/-- `B [CRLF] B tag B v1 B , … B vn B CRLF`. -/
def Reply (tag : Text) (ks : List FieldKind) (vs : List Int) (p : Text) : Prop :=
  ∃ b c q, Blanks b ∧ (c = [] ∨ c = Constants.CrLf) ∧ Packet tag ks vs q ∧ p = b ++ c ++ q

/-- A literal the deserializer can find behind blanks. -/
def Literal (seq : Text) : Prop := seq ≠ [] ∧ ∀ c ∈ seq.head?, c ∉ blanks

theorem literal_crLf : Literal Constants.CrLf := ⟨by decide, by decide +kernel⟩

theorem literal_comma : Literal Constants.Comma := ⟨by decide, by decide +kernel⟩

theorem Literal.head_append {seq : Text} (h : Literal seq) (r : Text) :
    ∀ c ∈ (seq ++ r).head?, c ∉ blanks := by
  rw [List.head?_append_of_ne_nil _ h.1]
  exact h.2

/-! ## Blanks and the cursor -/

theorem Blanks.append {b b' : Text} (h : Blanks b) (h' : Blanks b') : Blanks (b ++ b') :=
  fun c hc => (List.mem_append.1 hc).elim (h c) (h' c)

theorem Blanks.nil : Blanks [] := fun _ hc => by cases hc

theorem skip_append {b r : Text} (hb : Blanks b) (hr : ∀ c ∈ r.head?, c ∉ blanks) :
    skip (b ++ r) = r := skipSet_append hb hr

theorem gap_append {b r : Text} (hb : Blanks b) (hr : ∀ c ∈ r.head?, c ∉ blanks) :
    gap (b ++ r) = b.length := by
  have := gap_add_skip (b ++ r)
  rw [skip_append hb hr, List.length_append] at this
  omega

/-- The text at the cursor splits into blanks and what stands behind them. -/
theorem skip_split (r : Text) : ∃ b, r = b ++ skip r ∧ Blanks b ∧ b.length = gap r :=
  skipSet_split blanks r

/-- What may follow a numeral: no further digit. -/
def NoDigit (r : Text) : Prop := ∀ c ∈ r.head?, isDigit c = false

theorem blank_not_digit : ∀ c ∈ blanks, isDigit c = false := by decide +kernel

theorem Blanks.noDigit {b seq : Text} (hb : Blanks b) (hne : seq ≠ []) (hs : NoDigit seq) (r : Text) :
    NoDigit (b ++ seq ++ r) := by
  intro c hc
  rw [List.append_assoc] at hc
  cases b with
  | nil =>
    rw [List.nil_append, List.head?_append_of_ne_nil _ hne] at hc
    exact hs c hc
  | cons d b =>
    have hd : d = c := by simpa using hc
    exact blank_not_digit c (hb c (hd ▸ List.mem_cons_self))

/-! ## Visits of literals -/

/-- A literal behind blanks is found. -/
theorem visitSequence_literal {seq b : Text} (hseq : Literal seq) (hb : Blanks b) (pre r : Text) :
    visitSequence (pre ++ (b ++ seq ++ r)) seq pre.length = some (true, (pre ++ (b ++ seq)).length) := by
  have hpos : 0 < Sequence.parse seq (seq ++ r) := Sequence.parse_pos.2 ⟨hseq.1, List.prefix_append _ _⟩
  have hlen : Sequence.parse seq (seq ++ r) = seq.length := by
    classical
    rw [Sequence.parse_eq, if_pos (List.prefix_append _ _)]
  rw [List.append_assoc b, visitSequence_eq, skip_append hb (hseq.head_append r),
    gap_append hb (hseq.head_append r), decide_eq_true hpos, hlen]
  simp only [List.length_append, Nat.add_assoc]

/-- A visit of a literal takes blanks, and the literal when it succeeds. -/
theorem visitSequence_sound (seq pre r : Text) :
    ∃ ok w r', r = w ++ r' ∧ visitSequence (pre ++ r) seq pre.length = some (ok, (pre ++ w).length) ∧
      (ok = true → ∃ b, Blanks b ∧ w = b ++ seq) ∧ (ok = false → Blanks w) := by
  classical
  obtain ⟨b, hr, hb, hlen⟩ := skip_split r
  rw [visitSequence_eq, Sequence.parse_eq]
  by_cases hp : seq <+: skip r
  · obtain ⟨r', hr'⟩ := hp
    refine ⟨decide (0 < seq.length), b ++ seq, r', by rw [List.append_assoc, hr']; exact hr, ?_,
      fun _ => ⟨b, hb, rfl⟩, fun hzero => ?_⟩
    · rw [if_pos ⟨r', hr'⟩, ← hlen]
      simp only [List.length_append, Nat.add_assoc]
    · have hnil : seq = [] := by simpa using hzero
      rw [hnil, List.append_nil]
      exact hb
  · refine ⟨false, b, skip r, hr, ?_, fun h => (by cases h), fun _ => hb⟩
    rw [if_neg hp, ← hlen, List.length_append]
    rfl

/-- Where something else stands behind the blanks, only the blanks are taken. -/
theorem visitSequence_absent {seq b r : Text} (hb : Blanks b) (hr : ∀ c ∈ r.head?, c ∉ blanks)
    (hp : ¬ seq <+: r) (pre : Text) :
    visitSequence (pre ++ (b ++ r)) seq pre.length = some (false, (pre ++ b).length) := by
  classical
  rw [visitSequence_eq, skip_append hb hr, gap_append hb hr, Sequence.parse_eq, if_neg hp,
    List.length_append]
  rfl

/-! ## Visits of fields -/

theorem digit_not_blank {c : Byte} (h : isDigit c = true ∨ c = minus) : c ∉ blanks := by
  intro hb
  rcases h with h | rfl
  · rw [blank_not_digit c hb] at h
    cases h
  · exact absurd hb (by decide)

theorem Spells.head {k : FieldKind} {t : Text} {v : Int} (h : k.Spells t v) :
    t ≠ [] ∧ ∀ c ∈ t.head?, c ∉ blanks := by
  have hnum : IsNumeral t v → t ≠ [] ∧ ∀ c ∈ t.head?, c ∉ blanks := fun hn =>
    ⟨hn.ne_nil, fun c hc => digit_not_blank (hn.chars c (List.mem_of_mem_head? hc))⟩
  cases k with
  | int => exact hnum h.1
  | numeric values e => exact hnum h.1
  | custom e => exact e.keys t v h

/-- A text of the field behind blanks is read, with its value. -/
theorem visitField_spelled {k : FieldKind} {b t : Text} {v : Int} (hb : Blanks b) (hs : k.Spells t v)
    (old : Int) (pre : Text) {r : Text} (hr : NoDigit r) :
    visitField (pre ++ (b ++ t ++ r)) (k.field old) pre.length =
      some (true, k.field v, (pre ++ (b ++ t)).length) := by
  have hhead : ∀ c ∈ (t ++ r).head?, c ∉ blanks := Literal.head_append (Spells.head hs) r
  have hpos : 0 < t.length := List.length_pos_iff.2 (Spells.head hs).1
  have hskip : skip (b ++ (t ++ r)) = t ++ r := skip_append hb hhead
  have hgap : gap (b ++ (t ++ r)) = b.length := gap_append hb hhead
  rw [List.append_assoc b]
  cases k with
  | int =>
    have hf : fromChars INT_MIN INT_MAX (t ++ r) = some (v, t.length) :=
      fromChars_eq_some_iff.2 ⟨t, r, rfl, rfl, hs.1, hs.2.1, hs.2.2, hr⟩
    simp only [FieldKind.field, visitField, visitInt_eq, hskip, hgap, hf, Option.map_some,
      List.length_append, Nat.add_assoc]
  | numeric values e =>
    have hrange : INT_MIN ≤ v ∧ v ≤ INT_MAX := by
      have := e.range v hs.2
      unfold INT_MIN INT_MAX
      omega
    have hf : fromChars INT_MIN INT_MAX (t ++ r) = some (v, t.length) :=
      fromChars_eq_some_iff.2 ⟨t, r, rfl, rfl, hs.1, hrange.1, hrange.2, hr⟩
    have hcast : e.converter.enumCast v = some v := by rw [e.recognises, if_pos hs.2]
    simp only [FieldKind.field, NumericEnum.field, visitField, visitEnum_eq, hskip, hgap, Enum.parse,
      EnumStringConverter.parse, hf, hcast, Option.map_some, hpos, decide_true, List.length_append,
      Nat.add_assoc]
  | custom e =>
    have hl : e.converter.lookup (t ++ r) = some v :=
      EnumCustomStringConverter.lookup_complete e.prefixFree hs (e.keys t v hs).1 (List.prefix_append _ _)
    have hk : e.converter.lookupString v = some t :=
      EnumCustomStringConverter.lookupString_of_mem e.distinct hs
    simp only [FieldKind.field, visitField, visitEnum_eq, hskip, hgap, Enum.parse,
      EnumCustomStringConverter.parse, hl, hk, Option.map_some, Option.getD_some, hpos, decide_true,
      List.length_append, Nat.add_assoc]

/-- A visit of a field takes blanks, and a text of the field when it succeeds. -/
theorem visitField_sound (k : FieldKind) (old : Int) (pre r : Text) :
    ∃ ok f w r', r = w ++ r' ∧
      visitField (pre ++ r) (k.field old) pre.length = some (ok, f, (pre ++ w).length) ∧
      (ok = true → ∃ b t v, Blanks b ∧ k.Spells t v ∧ w = b ++ t ∧ f = k.field v) := by
  obtain ⟨b, hr, hb, hlen⟩ := skip_split r
  cases k with
  | int =>
    cases hf : fromChars INT_MIN INT_MAX (skip r) with
    | none =>
      refine ⟨false, .int old, b, skip r, hr, ?_, fun h => by cases h⟩
      simp only [FieldKind.field, visitField, visitInt_eq, hf, Option.map_some, List.length_append, hlen]
    | some x =>
      obtain ⟨v, n⟩ := x
      obtain ⟨t, r', ht, rfl, hn, hlo, hhi, -⟩ := fromChars_eq_some_iff.1 hf
      refine ⟨true, .int v, b ++ t, r', by rw [List.append_assoc, ← ht]; exact hr, ?_,
        fun _ => ⟨b, t, v, hb, ⟨hn, hlo, hhi⟩, rfl, rfl⟩⟩
      simp only [FieldKind.field, visitField, visitInt_eq, hf, Option.map_some, List.length_append, hlen,
        Nat.add_assoc]
  | numeric values e =>
    have hreject : e.converter.parse old (skip r) = (0, old) →
        ∃ ok f w r', r = w ++ r' ∧
          visitField (pre ++ r) (e.field old) pre.length = some (ok, f, (pre ++ w).length) ∧
          (ok = true → ∃ b t v, Blanks b ∧ (FieldKind.numeric values e).Spells t v ∧ w = b ++ t ∧
            f = e.field v) := by
      intro hp
      refine ⟨false, e.field old, b, skip r, hr, ?_, fun h => by cases h⟩
      simp only [NumericEnum.field, visitField, visitEnum_eq, Enum.parse, hp, Option.map_some,
        List.length_append, hlen, Nat.lt_irrefl, decide_false, Nat.add_zero]
    cases hf : fromChars INT_MIN INT_MAX (skip r) with
    | none => exact hreject (by simp only [EnumStringConverter.parse, hf])
    | some x =>
      obtain ⟨v, n⟩ := x
      by_cases hv : v ∈ values
      · obtain ⟨t, r', ht, rfl, hn, -⟩ := fromChars_eq_some_iff.1 hf
        have hcast : e.converter.enumCast v = some v := by rw [e.recognises, if_pos hv]
        have hpos : 0 < t.length := List.length_pos_iff.2 hn.ne_nil
        refine ⟨true, e.field v, b ++ t, r', by rw [List.append_assoc, ← ht]; exact hr, ?_,
          fun _ => ⟨b, t, v, hb, ⟨hn, hv⟩, rfl, rfl⟩⟩
        simp only [FieldKind.field, NumericEnum.field, visitField, visitEnum_eq, Enum.parse,
          EnumStringConverter.parse, hf, hcast, Option.map_some, hpos, decide_true, List.length_append,
          hlen, Nat.add_assoc]
      · have hcast : e.converter.enumCast v = none := by rw [e.recognises, if_neg hv]
        exact hreject (by simp only [EnumStringConverter.parse, hf, hcast])
  | custom e =>
    cases hl : e.converter.lookup (skip r) with
    | none =>
      refine ⟨false, .enum ⟨.custom e.converter, old⟩, b, skip r, hr, ?_, fun h => by cases h⟩
      simp only [FieldKind.field, visitField, visitEnum_eq, Enum.parse,
        EnumCustomStringConverter.parse, hl, Option.map_some, List.length_append, hlen, Nat.lt_irrefl,
        decide_false, Nat.add_zero]
    | some v =>
      obtain ⟨t, hm, r', hr'⟩ := EnumCustomStringConverter.lookup_sound hl
      have hk : e.converter.lookupString v = some t :=
        EnumCustomStringConverter.lookupString_of_mem e.distinct hm
      have hpos : 0 < t.length := List.length_pos_iff.2 (e.keys t v hm).1
      refine ⟨true, .enum ⟨.custom e.converter, v⟩, b ++ t, r',
        by rw [List.append_assoc, hr']; exact hr, ?_, fun _ => ⟨b, t, v, hb, hm, rfl, rfl⟩⟩
      simp only [FieldKind.field, visitField, visitEnum_eq, Enum.parse,
        EnumCustomStringConverter.parse, hl, hk, Option.map_some, Option.getD_some, hpos, decide_true,
        List.length_append, hlen, Nat.add_assoc]

/-! ## Packets -/

/-- The fields of a response, with what they held before. -/
def contents (cs : List (FieldKind × Int)) : List ResponseField := cs.map fun c => c.1.field c.2

def kinds (cs : List (FieldKind × Int)) : List FieldKind := cs.map (·.1)

/-- The fields of a response that hold `vs`. -/
def holding (ks : List FieldKind) (vs : List Int) : List ResponseField :=
  List.zipWith FieldKind.field ks vs

theorem noDigit_comma : NoDigit Constants.Comma := by unfold NoDigit; decide +kernel

theorem noDigit_crLf : NoDigit Constants.CrLf := by unfold NoDigit; decide +kernel

/-- The fields are read from a text of their grammar. -/
theorem visitWithCommas_values {cs : List (FieldKind × Int)} {vs : List Int} {w : Text}
    (hw : Values (kinds cs) vs w) (pre : Text) {r : Text} (hr : NoDigit r) :
    visitWithCommas (visitor (pre ++ (w ++ r))) (contents cs) pre.length =
      some (true, holding (kinds cs) vs, (pre ++ w).length) := by
  generalize hks : kinds cs = ks at hw
  induction hw generalizing cs pre with
  | nil =>
    obtain rfl : cs = [] := List.map_eq_nil_iff.1 hks
    rw [List.append_nil]
    rfl
  | single hb hs =>
    obtain ⟨⟨k, old⟩, rfl, rfl⟩ := List.map_eq_singleton_iff.1 hks
    show Option.map _ ((visitor _).visit (k.field old) pre.length) = _
    rw [visitor_visit, visitField_spelled hb hs old pre hr]
    rfl
  | @cons _ _ _ v vs b t b' w hb hs hb' hrest ih =>
    obtain ⟨⟨k, old⟩, cs', rfl, rfl, hcs'⟩ := List.map_eq_cons_iff.1 hks
    obtain ⟨⟨k', old'⟩, cs'', rfl, rfl, rfl⟩ := List.map_eq_cons_iff.1 hcs'
    generalize hI : pre ++ (b ++ t ++ (b' ++ Constants.Comma) ++ w ++ r) = input
    have hfield : visitField input (k.field old) pre.length =
        some (true, k.field v, (pre ++ (b ++ t)).length) := by
      have hdigit := hb'.noDigit literal_comma.1 noDigit_comma (w ++ r)
      rw [← visitField_spelled hb hs old pre hdigit, ← hI]
      simp only [List.append_assoc]
    have hcomma : visitSequence input Constants.Comma (pre ++ (b ++ t)).length =
        some (true, (pre ++ (b ++ t) ++ (b' ++ Constants.Comma)).length) := by
      rw [← visitSequence_literal literal_comma hb' (pre ++ (b ++ t)) (w ++ r), ← hI]
      simp only [List.append_assoc]
    have hrec := @ih ((k', old') :: cs'') (pre ++ (b ++ t) ++ (b' ++ Constants.Comma)) rfl
    have hI' : pre ++ (b ++ t) ++ (b' ++ Constants.Comma) ++ (w ++ r) = input := by
      rw [← hI]
      simp only [List.append_assoc]
    rw [hI'] at hrec
    show visitWithCommas (visitor input) (k.field old :: k'.field old' :: contents cs'') _ = _
    simp only [visitWithCommas, visitor_visit, hfield, visitor_visitSequence, hcomma]
    rw [show k'.field old' :: contents cs'' = contents ((k', old') :: cs'') from rfl, hrec]
    simp only [Option.map_some, List.append_assoc]
    rfl

/-- The fields are read only from a text of their grammar. -/
theorem visitWithCommas_sound : ∀ (cs : List (FieldKind × Int)) (pre r : Text),
    ∃ ok fs w r', r = w ++ r' ∧
      visitWithCommas (visitor (pre ++ r)) (contents cs) pre.length = some (ok, fs, (pre ++ w).length) ∧
      (ok = true → ∃ vs, Values (kinds cs) vs w ∧ fs = holding (kinds cs) vs)
  | [], pre, r => ⟨true, [], [], r, rfl, by rw [List.append_nil]; rfl, fun _ => ⟨[], .nil, rfl⟩⟩
  | [(k, old)], pre, r => by
    obtain ⟨ok, f, w, r', hr, hv, hok⟩ := visitField_sound k old pre r
    refine ⟨ok, [f], w, r', hr, ?_, fun h => ?_⟩
    · show Option.map _ ((visitor _).visit (k.field old) pre.length) = _
      rw [visitor_visit, hv]
      rfl
    · obtain ⟨b, t, v, hb, hs, rfl, rfl⟩ := hok h
      exact ⟨[v], .single hb hs, rfl⟩
  | (k, old) :: (k', old') :: cs, pre, r => by
    obtain ⟨ok, f, w, r1, hr, hv, hok⟩ := visitField_sound k old pre r
    show ∃ ok fs w r', r = w ++ r' ∧
      visitWithCommas _ (k.field old :: k'.field old' :: contents cs) pre.length = _ ∧ _
    cases ok with
    | false =>
      refine ⟨false, f :: k'.field old' :: contents cs, w, r1, hr, ?_, fun h => by cases h⟩
      simp only [visitWithCommas, visitor_visit, hv]
    | true =>
      obtain ⟨b, t, v, hb, hs, rfl, rfl⟩ := hok rfl
      obtain ⟨ok, c, r2, hr1, hc, hcomma, -⟩ := visitSequence_sound Constants.Comma (pre ++ (b ++ t)) r1
      have hinput : pre ++ (b ++ t) ++ r1 = pre ++ r := by rw [hr]; simp only [List.append_assoc]
      rw [hinput] at hc
      cases ok with
      | false =>
        refine ⟨false, k.field v :: k'.field old' :: contents cs, b ++ t ++ c, r2,
          by rw [hr, hr1]; simp only [List.append_assoc], ?_, fun h => by cases h⟩
        simp only [visitWithCommas, visitor_visit, hv, visitor_visitSequence, hc, List.append_assoc]
      | true =>
        obtain ⟨b', hb', rfl⟩ := hcomma rfl
        obtain ⟨ok, fs, w, r3, hr2, hrec, hvs⟩ :=
          visitWithCommas_sound ((k', old') :: cs) (pre ++ (b ++ t) ++ (b' ++ Constants.Comma)) r2
        have hinput' : pre ++ (b ++ t) ++ (b' ++ Constants.Comma) ++ r2 = pre ++ r := by
          rw [hr, hr1]; simp only [List.append_assoc]
        rw [hinput'] at hrec
        refine ⟨ok, k.field v :: fs, b ++ t ++ (b' ++ Constants.Comma) ++ w, r3,
          by rw [hr, hr1, hr2]; simp only [List.append_assoc], ?_, fun h => ?_⟩
        · simp only [visitWithCommas, visitor_visit, hv, visitor_visitSequence, hc]
          rw [show k'.field old' :: contents cs = contents ((k', old') :: cs) from rfl, hrec]
          simp only [Option.map_some, List.append_assoc]
        · obtain ⟨vs, hvals, rfl⟩ := hvs h
          exact ⟨v :: vs, .cons hb hs hb' hvals, rfl⟩

/-- **`APacket::accept` reads its packets**: from a packet at the cursor it takes exactly that
text. -/
theorem accept_packet {tag : Text} (htag : Literal tag) {cs : List (FieldKind × Int)} {vs : List Int}
    {p : Text} (hp : Packet tag (kinds cs) vs p) (pre r : Text) :
    APacket.accept (visitor (pre ++ (p ++ r))) tag (contents cs) pre.length =
      some (true, holding (kinds cs) vs, (pre ++ p).length) := by
  obtain ⟨b, w, b', hb, hw, hb', rfl⟩ := hp
  generalize hI : pre ++ (b ++ tag ++ w ++ (b' ++ Constants.CrLf) ++ r) = input
  have hstart : visitSequence input tag pre.length = some (true, (pre ++ (b ++ tag)).length) := by
    rw [← visitSequence_literal htag hb pre (w ++ (b' ++ Constants.CrLf) ++ r), ← hI]
    simp only [List.append_assoc]
  have hfields : visitWithCommas (visitor input) (contents cs) (pre ++ (b ++ tag)).length =
      some (true, holding (kinds cs) vs, (pre ++ (b ++ tag) ++ w).length) := by
    have hdigit := hb'.noDigit literal_crLf.1 noDigit_crLf r
    rw [← visitWithCommas_values hw (pre ++ (b ++ tag)) hdigit, ← hI]
    simp only [List.append_assoc]
  have hterm : visitSequence input Constants.CrLf (pre ++ (b ++ tag) ++ w).length =
      some (true, (pre ++ (b ++ tag) ++ w ++ (b' ++ Constants.CrLf)).length) := by
    rw [← visitSequence_literal literal_crLf hb' (pre ++ (b ++ tag) ++ w) r, ← hI]
    simp only [List.append_assoc]
  unfold APacket.accept acceptWithTerm
  rw [if_pos (List.length_pos_iff.2 htag.1)]
  simp only [visitor_visitSequence, hstart, hfields, hterm, Option.map_some]
  simp only [List.append_assoc]

/-- `APacket::accept` throws nowhere and accepts only packets. -/
theorem accept_sound {tag : Text} (htag : Literal tag) (cs : List (FieldKind × Int)) (pre r : Text) :
    ∃ ok fs w r', r = w ++ r' ∧
      APacket.accept (visitor (pre ++ r)) tag (contents cs) pre.length =
        some (ok, fs, (pre ++ w).length) ∧
      (ok = true → ∃ vs, Packet tag (kinds cs) vs w ∧ fs = holding (kinds cs) vs) := by
  unfold APacket.accept acceptWithTerm
  rw [if_pos (List.length_pos_iff.2 htag.1)]
  obtain ⟨ok, w, r1, hr, hv, hstart, -⟩ := visitSequence_sound tag pre r
  simp only [visitor_visitSequence, hv]
  cases ok with
  | false => exact ⟨false, _, w, r1, hr, rfl, fun h => by cases h⟩
  | true =>
    obtain ⟨b, hb, rfl⟩ := hstart rfl
    obtain ⟨ok, fs, w, r2, hr1, hvals, hok⟩ := visitWithCommas_sound cs (pre ++ (b ++ tag)) r1
    have hinput : pre ++ (b ++ tag) ++ r1 = pre ++ r := by rw [hr]; simp only [List.append_assoc]
    rw [hinput] at hvals
    simp only [hvals]
    cases ok with
    | false =>
      exact ⟨false, fs, b ++ tag ++ w, r2, by rw [hr, hr1]; simp only [List.append_assoc],
        by simp only [List.append_assoc], fun h => by cases h⟩
    | true =>
      obtain ⟨vs, hw, rfl⟩ := hok rfl
      obtain ⟨ok, c, r3, hr2, hc, hterm, -⟩ :=
        visitSequence_sound Constants.CrLf (pre ++ (b ++ tag) ++ w) r2
      have hinput' : pre ++ (b ++ tag) ++ w ++ r2 = pre ++ r := by
        rw [hr, hr1]; simp only [List.append_assoc]
      rw [hinput'] at hc
      have hsplit : r = b ++ tag ++ w ++ c ++ r3 := by
        rw [hr, hr1, hr2]
        simp only [List.append_assoc]
      refine ⟨ok, holding (kinds cs) vs, b ++ tag ++ w ++ c, r3, hsplit, ?_,
        fun h => ?_⟩
      · simp only [hc, Option.map_some]
        simp only [List.append_assoc]
      · obtain ⟨b', hb', rfl⟩ := hterm h
        exact ⟨vs, ⟨b, w, b', hb, hw, hb', rfl⟩, rfl⟩

/-! ## Responses -/

/-- `Response::acceptImpl` skips an optional CRLF and goes on as `APacket::accept`. -/
theorem Response.acceptImpl_eq (tag : Text) (args : List ResponseField) (input : Text) (length : Nat) :
    Response.acceptImpl tag args input length =
      (visitSequence input Constants.CrLf length).bind fun s =>
        APacket.accept (visitor input) tag args s.2 := by
  unfold Response.acceptImpl
  cases visitSequence input Constants.CrLf length <;> rfl

/-- A text that starts with neither a blank nor CR. -/
def Unspaced (t : Text) : Prop := ∀ c ∈ t.head?, c ∉ blanks ∧ c ≠ 13

theorem Unspaced.no_crLf {t : Text} (h : Unspaced t) : ¬ Constants.CrLf <+: t := by
  rintro ⟨r, rfl⟩
  exact (h 13 rfl).2 rfl

theorem Unspaced.append {t : Text} (h : Unspaced t) (hne : t ≠ []) (r : Text) : Unspaced (t ++ r) := by
  unfold Unspaced
  rw [List.head?_append_of_ne_nil _ hne]
  exact h

theorem Unspaced.literal {t : Text} (h : Unspaced t) (hne : t ≠ []) : Literal t :=
  ⟨hne, fun c hc => (h c hc).1⟩

/-- From a reply of its grammar a response takes exactly that text. -/
theorem Response.acceptImpl_reply {tag : Text} (htag : Unspaced tag) (hne : tag ≠ [])
    {cs : List (FieldKind × Int)} {vs : List Int} {p : Text} (hp : Reply tag (kinds cs) vs p) (r : Text) :
    Response.acceptImpl tag (contents cs) (p ++ r) 0 =
      some (true, holding (kinds cs) vs, p.length) := by
  obtain ⟨b, c, q, hb, hc, hq, rfl⟩ := hp
  rw [Response.acceptImpl_eq]
  rcases hc with rfl | rfl
  · -- no CRLF in front: the blanks before the tag are taken, and the rest is a packet as well
    obtain ⟨b1, w, b', hb1, hw, hb', rfl⟩ := hq
    have hq' : Packet tag (kinds cs) vs ([] ++ tag ++ w ++ (b' ++ Constants.CrLf)) :=
      ⟨[], w, b', Blanks.nil, hw, hb', rfl⟩
    have hunspaced : Unspaced (tag ++ (w ++ (b' ++ Constants.CrLf) ++ r)) := htag.append hne _
    have hskip := visitSequence_absent (hb.append hb1) (fun c hc => (hunspaced c hc).1)
      hunspaced.no_crLf []
    have haccept := accept_packet (htag.literal hne) hq' (b ++ b1) r
    simp only [List.nil_append, List.append_nil, List.append_assoc, List.length_nil] at hskip haccept ⊢
    rw [hskip, Option.bind_some, haccept]
  · have hskip := visitSequence_literal literal_crLf hb [] (q ++ r)
    have haccept := accept_packet (htag.literal hne) hq (b ++ Constants.CrLf) r
    simp only [List.nil_append, List.append_assoc, List.length_nil] at hskip haccept ⊢
    rw [hskip, Option.bind_some, haccept]

/-- A response throws nowhere and accepts only replies of its grammar. -/
theorem Response.acceptImpl_sound {tag : Text} (htag : Unspaced tag) (hne : tag ≠ [])
    (cs : List (FieldKind × Int)) (input : Text) :
    ∃ ok fs w r, input = w ++ r ∧
      Response.acceptImpl tag (contents cs) input 0 = some (ok, fs, w.length) ∧
      (ok = true → ∃ vs, Reply tag (kinds cs) vs w ∧ fs = holding (kinds cs) vs) := by
  rw [Response.acceptImpl_eq]
  obtain ⟨skipped, c, r, hr, hv, hyes, hno⟩ := visitSequence_sound Constants.CrLf [] input
  obtain ⟨ok, fs, w, r', hr', haccept, hok⟩ := accept_sound (htag.literal hne) cs c r
  simp only [List.nil_append, List.length_nil] at hv
  rw [hv, Option.bind_some]
  refine ⟨ok, fs, c ++ w, r', by rw [hr, hr', List.append_assoc], by rw [hr, haccept], fun h => ?_⟩
  obtain ⟨vs, hpacket, hfs⟩ := hok h
  refine ⟨vs, ?_, hfs⟩
  cases skipped with
  | true =>
    obtain ⟨b, hb, rfl⟩ := hyes rfl
    exact ⟨b, Constants.CrLf, w, hb, Or.inr rfl, hpacket, rfl⟩
  | false => exact ⟨c, [], w, hno rfl, Or.inl rfl, hpacket, by rw [List.append_nil]⟩

/-- **A response is accepted exactly on its grammar**: `accept` never throws, succeeds when and
only when the input starts with a reply, and then stands behind that reply with the fields
holding the values spelled in it. -/
theorem Response.acceptImpl_iff {tag : Text} (htag : Unspaced tag) (hne : tag ≠ [])
    (cs : List (FieldKind × Int)) (input : Text) :
    ∃ ok fs length, Response.acceptImpl tag (contents cs) input 0 = some (ok, fs, length) ∧
      (ok = true ↔ ∃ p vs, p <+: input ∧ Reply tag (kinds cs) vs p) ∧
      ∀ p vs, p <+: input → Reply tag (kinds cs) vs p →
        length = p.length ∧ fs = holding (kinds cs) vs := by
  obtain ⟨ok, fs, w, r, hinput, haccept, hok⟩ := Response.acceptImpl_sound htag hne cs input
  refine ⟨ok, fs, w.length, haccept, ⟨fun h => ?_, ?_⟩, ?_⟩
  · obtain ⟨vs, hw, -⟩ := hok h
    exact ⟨w, vs, ⟨r, hinput.symm⟩, hw⟩
  · rintro ⟨p, vs, ⟨r', rfl⟩, hp⟩
    rw [Response.acceptImpl_reply htag hne hp] at haccept
    simp only [Option.some.injEq, Prod.mk.injEq] at haccept
    exact haccept.1.symm
  · rintro p vs ⟨r', rfl⟩ hp
    rw [Response.acceptImpl_reply htag hne hp] at haccept
    simp only [Option.some.injEq, Prod.mk.injEq] at haccept
    exact ⟨haccept.2.2.symm, haccept.2.1.symm⟩

/-- An enum with the keys `FIVE` and `SIX`. -/
def fiveSix : CustomEnum where
  converter := ⟨[(text "FIVE", 5), (text "SIX", 6)], by decide⟩
  distinct := by decide
  prefixFree := by unfold PrefixFree; decide
  keys := by
    intro k v h
    simp only [List.mem_cons, Prod.mk.injEq, List.not_mem_nil, or_false] at h
    rcases h with ⟨rfl, -⟩ | ⟨rfl, -⟩ <;> decide +kernel

/-- An int, a number out of three and a key. -/
def threeFields : List (FieldKind × Int) :=
  [(.int, 0), (.numeric [0, 1, 2] (.ofValues [0, 1, 2] (by decide)), 0), (.custom fiveSix, 5)]

/-- Three fields with blanks around them, a CRLF in front and more text behind. -/
theorem Response.acceptImpl_iff_three_fields :
    ∃ ok fs length,
      Response.acceptImpl (text "+FOO:") (contents threeFields) (text "\r\n+FOO: -7,2 , SIX\r\nOK") 0 =
        some (ok, fs, length) ∧
      (ok = true ↔ ∃ p vs, p <+: text "\r\n+FOO: -7,2 , SIX\r\nOK" ∧
        Reply (text "+FOO:") (kinds threeFields) vs p) ∧
      ∀ p vs, p <+: text "\r\n+FOO: -7,2 , SIX\r\nOK" → Reply (text "+FOO:") (kinds threeFields) vs p →
        length = p.length ∧ fs = holding (kinds threeFields) vs :=
  Response.acceptImpl_iff (by unfold Unspaced; decide +kernel) (by decide) threeFields
    (text "\r\n+FOO: -7,2 , SIX\r\nOK")

end ATLink
