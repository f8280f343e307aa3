import ATLink.Deserializer
import ATLink.Serializer

/-!
# Quoted text, written and read back

`Serializer::writeQuoted` puts a backslash before each inner quote; `parseStringLiteral` ends at
the next quote, escaped or not, and copies nothing where the quotes enclose nothing.

* `RoundTrips` — the deserializer takes exactly the bytes written and leaves the text in the
  storage, NUL-terminated.
* `AcceptsLiteralOnly` — a visit succeeds at a literal only, and fails without a trace elsewhere.

Principal results: `roundTrips_iff` — a text that fits the storage survives exactly when it holds
no quote, and, when it is empty, the storage starts with a NUL already; `acceptsLiteralOnly_iff` —
the inputs at which a visit is what it should be.
-/

namespace ATLink

open StringView Deserializer Serializer

namespace Serializer

/-- The bytes that a successful visit of a text has added to the output. -/
theorem visitQuoted_output {s s' : Serializer} {txt : Text} (h : s.visitQuoted txt = (true, s')) :
    s'.output.drop s.written = encodeQuoted txt := by
  have hneed : 2 + txt.length + txt.count quote = (encodeQuoted txt).length :=
    (encodeQuoted_length txt).symm
  simp only [visitQuoted, writeQuoted, hneed, ← encodeQuoted_eq, Prod.mk.injEq] at h
  obtain ⟨hpos, rfl⟩ := h
  split at hpos
  case isFalse => simp at hpos
  case isTrue hfit =>
    rw [if_pos hfit]
    have hrest : s.rest.length = s.buf.length - s.pos := List.length_drop
    have htake : (s.buf.take s.pos).length = s.pos := List.length_take_of_le (by omega)
    have hwritten : s.written = s.pos := by unfold written; omega
    have hadvanced : (s.advance (encodeQuoted txt).length
        (encodeQuoted txt ++ s.rest.drop (encodeQuoted txt).length)).written =
        s.pos + (encodeQuoted txt).length := by
      simp only [written, advance, rest, List.length_drop, List.length_append, htake]
      omega
    have hprefix : s.pos + (encodeQuoted txt).length = (s.buf.take s.pos ++ encodeQuoted txt).length := by
      rw [List.length_append, htake]
    rw [output, hadvanced, hprefix, hwritten]
    simp only [advance]
    rw [← List.append_assoc, List.take_left, List.drop_left' htake]

end Serializer

/-- The bytes written are taken, and the storage holds the text and a NUL. -/
def RoundTrips (written further txt storage : Text) : Prop :=
  ∃ storage', Deserializer.visitQuoted (written ++ further) storage 0 =
      some (true, storage', written.length) ∧ txt ++ [0] <+: storage'

/-- A visit at a quote reads the literal there. -/
theorem visitQuoted_at_quote (r storage : Text) :
    Deserializer.visitQuoted (quote :: r) storage 0 =
      some (true, (parseStringLiteral (quote :: r) storage).2,
        (parseStringLiteral (quote :: r) storage).1) := by
  have hhead : ∀ c ∈ (quote :: r).head?, c ∉ blanks := fun c hc => by
    cases Option.some.inj hc; decide
  have hskip : skip (quote :: r) = quote :: r := skipSet_append (b := []) (by simp) hhead
  have hgap : gap (quote :: r) = 0 := by rw [gap, hskip, Nat.sub_self]
  have hpos : 0 < (parseStringLiteral (quote :: r) storage).1 :=
    Nat.lt_of_lt_of_le (by decide) (parseStringLiteral_ge _ _)
  have h := visitQuoted_eq [] (quote :: r) storage
  rw [hskip, hgap, decide_eq_true hpos] at h
  simpa using h

theorem parseStringLiteral_at_quote {content out : Text} (hc : quote ∉ content) (hne : content ≠ [])
    (hfit : content.length < out.length) (rest : Text) :
    parseStringLiteral (quote :: (content ++ quote :: rest)) out =
      (content.length + 2, content ++ 0 :: out.drop (content.length + 1)) :=
  @parseStringLiteral_literal [] content rest out List.not_mem_nil hc hne hfit

/-- Two quotes with nothing between them leave the storage as it is. -/
theorem parseStringLiteral_empty (rest out : Text) :
    parseStringLiteral (quote :: quote :: rest) out = (2, out) := by
  simp [parseStringLiteral, find, findFrom, List.isPrefixOf]

theorem encodeQuoted_of_not_mem {txt : Text} (h : quote ∉ txt) :
    encodeQuoted txt = quote :: txt ++ [quote] := by
  rw [encodeQuoted_eq, escape_of_not_mem h]

/-- At an inner quote the encoding goes on with a backslash and that quote. -/
theorem encodeQuoted_append (a c : Text) (h : quote ∉ a) :
    encodeQuoted (a ++ quote :: c) = quote :: (a ++ [backslash]) ++ quote :: (escape c ++ [quote]) := by
  rw [encodeQuoted_eq, escape_append h]
  simp only [List.cons_append, List.append_assoc, List.nil_append]

/-- A text with an inner quote is cut at it. -/
theorem not_roundTrips_of_quote {txt storage : Text} (h : quote ∈ txt) (hlt : txt.length < storage.length)
    (further : Text) : ¬ RoundTrips (encodeQuoted txt) further txt storage := by
  obtain ⟨a, c, rfl, ha⟩ := List.eq_append_cons_of_mem h
  rintro ⟨storage', hvisit, -⟩
  have hcontent : quote ∉ a ++ [backslash] := by
    rw [List.mem_append, List.mem_singleton]
    exact fun h => h.elim ha (by decide)
  rw [List.length_append, List.length_cons] at hlt
  have hfit : (a ++ [backslash]).length < storage.length := by
    rw [List.length_append, List.length_singleton]
    omega
  have hparse := parseStringLiteral_at_quote hcontent (by simp) hfit (escape c ++ [quote] ++ further)
  have hlen := encodeQuoted_length (a ++ quote :: c)
  have hinput : encodeQuoted (a ++ quote :: c) ++ further =
      quote :: (a ++ [backslash] ++ quote :: (escape c ++ [quote] ++ further)) := by
    rw [encodeQuoted_append a c ha]
    simp only [List.cons_append, List.append_assoc]
  rw [hinput, visitQuoted_at_quote, hparse, hlen] at hvisit
  simp only [Option.some.injEq, Prod.mk.injEq, true_and, List.length_append, List.length_cons,
    List.length_nil, List.count_append, List.count_cons_self] at hvisit
  omega

/-- A text without quotes, not empty, is read back. -/
theorem roundTrips_of_text {txt storage : Text} (h : quote ∉ txt) (hne : txt ≠ [])
    (hlt : txt.length < storage.length) (further : Text) :
    RoundTrips (encodeQuoted txt) further txt storage := by
  have hinput : encodeQuoted txt ++ further = quote :: (txt ++ quote :: further) := by
    rw [encodeQuoted_of_not_mem h]
    simp only [List.cons_append, List.append_assoc, List.nil_append]
  have hlen : (encodeQuoted txt).length = txt.length + 2 := by
    rw [encodeQuoted_length, List.count_eq_zero.2 h]
    omega
  refine ⟨txt ++ 0 :: storage.drop (txt.length + 1), ?_, ?_⟩
  · rw [hinput, visitQuoted_at_quote, parseStringLiteral_at_quote h hne hlt, hlen]
  · exact ⟨storage.drop (txt.length + 1), by rw [List.append_assoc]; rfl⟩

/-- Two quotes with nothing between them are taken, and the storage is not touched. -/
theorem roundTrips_nil_iff (storage further : Text) :
    RoundTrips (encodeQuoted []) further [] storage ↔ storage.head? = some 0 := by
  have hparse := parseStringLiteral_empty further storage
  have hvisit : Deserializer.visitQuoted (encodeQuoted [] ++ further) storage 0 =
      some (true, storage, (encodeQuoted []).length) := by
    show Deserializer.visitQuoted (quote :: quote :: further) storage 0 = _
    rw [visitQuoted_at_quote, hparse]
    rfl
  unfold RoundTrips
  rw [hvisit]
  cases storage <;> simp [eq_comm]

/-- **The round trip, exactly**: the deserializer gives back the text the serializer wrote if
and only if the text holds no quote and is not an empty one over a storage that does not start
with a NUL. -/
theorem roundTrips_iff {s s' : Serializer} {txt storage : Text} (hlt : txt.length < storage.length)
    (hwrite : s.visitQuoted txt = (true, s')) (further : Text) :
    RoundTrips (s'.output.drop s.written) further txt storage ↔
      quote ∉ txt ∧ (txt = [] → storage.head? = some 0) := by
  rw [visitQuoted_output hwrite]
  by_cases hquote : quote ∈ txt
  · exact iff_of_false (not_roundTrips_of_quote hquote hlt further) fun h => h.1 hquote
  by_cases hne : txt = []
  · subst hne
    rw [roundTrips_nil_iff]
    exact ⟨fun h => ⟨hquote, fun _ => h⟩, fun h => h.2 rfl⟩
  · exact iff_of_true (roundTrips_of_text hquote hne hlt further) ⟨hquote, fun h => absurd h hne⟩

/-- `ab` over a storage full of `A`. -/
theorem roundTrips_iff_ab :
    RoundTrips (((init (List.replicate 8 0)).visitQuoted (text "ab")).2.output.drop
        (init (List.replicate 8 0)).written) (text ",1") (text "ab") (List.replicate 4 65) ↔
      quote ∉ text "ab" ∧ (text "ab" = [] → (List.replicate 4 (65 : Byte)).head? = some 0) :=
  roundTrips_iff (by decide) (Prod.ext (by decide) rfl) (text ",1")

/-- `a"b` is written as `"a\"b"` and read back as `a\`. -/
theorem inner_quote_is_lost :
    ∃ s', (init (List.replicate 16 0)).visitQuoted (text "a\"b") = (true, s') ∧
      ¬ RoundTrips (s'.output.drop (init (List.replicate 16 0)).written) [] (text "a\"b")
        (List.replicate 8 0) := by
  refine ⟨((init (List.replicate 16 0)).visitQuoted (text "a\"b")).2, Prod.ext (by decide) rfl, ?_⟩
  have hwritten : ((init (List.replicate 16 0)).visitQuoted (text "a\"b")).2.output.drop
      (init (List.replicate 16 0)).written = text "\"a\\\"b\"" := by decide
  have hread : Deserializer.visitQuoted (text "\"a\\\"b\"" ++ []) (List.replicate 8 0) 0 =
      some (true, text "a\\" ++ List.replicate 6 0, 4) := by decide
  rw [hwritten]
  rintro ⟨storage', hvisit, -⟩
  rw [hread] at hvisit
  simp only [Option.some.injEq, Prod.mk.injEq] at hvisit
  exact absurd hvisit.2.2 (by decide)

/-! ## What a visit accepts -/

/-- The text starts with a quote, and the next quote closes the literal. -/
def StartsLiteral (r content rest : Text) : Prop :=
  quote ∉ content ∧ r = quote :: (content ++ quote :: rest)

theorem StartsLiteral.unique {r content content' rest rest' : Text} (h : StartsLiteral r content rest)
    (h' : StartsLiteral r content' rest') : content = content' ∧ rest = rest' :=
  append_cons_inj h.1 h'.1 (List.cons.inj (h.2.symm.trans h'.2)).2

/-- Behind the end of the input there is no literal. -/
theorem StartsLiteral.split {input content rest : Text} {length : Nat}
    (h : StartsLiteral (skip (input.drop length)) content rest) :
    ∃ pre r, input = pre ++ r ∧ length = pre.length ∧ StartsLiteral (skip r) content rest := by
  have hin : length ≤ input.length := by
    by_contra hout
    rw [List.drop_eq_nil_of_le (by omega)] at h
    exact absurd h.2 (by simp [skip, skipSet])
  obtain ⟨pre, r, rfl, rfl⟩ := exists_split hin
  rw [List.drop_left] at h
  exact ⟨pre, r, rfl, rfl, h⟩

/-- A visit that succeeds has found a literal behind the blanks, and where its content has room the
cursor stands behind the closing quote and the storage holds the content with a NUL; without a
literal the visit fails, takes the blanks only and leaves the storage as it is. -/
def AcceptsLiteralOnly (input storage : Text) (length : Nat) : Prop :=
  (∀ storage' n, Deserializer.visitQuoted input storage length = some (true, storage', n) →
      ∃ content rest, StartsLiteral (skip (input.drop length)) content rest ∧
        (content.length < storage.length →
          n = input.length - rest.length ∧ content ++ [0] <+: storage')) ∧
    ((¬ ∃ content rest, StartsLiteral (skip (input.drop length)) content rest) →
      Deserializer.visitQuoted input storage length =
        some (false, storage, input.length - (skip (input.drop length)).length))

/-- A visit never fails: two characters are reported where nothing is found. -/
theorem visitQuoted_ne_false {input storage storage' : Text} {length n : Nat} :
    Deserializer.visitQuoted input storage length ≠ some (false, storage', n) := by
  intro h
  rcases Nat.lt_or_ge input.length length with hout | hin
  · have hsub : substr input length = none := if_neg (by omega)
    simp [Deserializer.visitQuoted, skipWhitespaces, hsub] at h
  · obtain ⟨pre, r, rfl, rfl⟩ := exists_split hin
    have hpos := parseStringLiteral_ge (skip r) storage
    rw [visitQuoted_eq] at h
    simp only [Option.some.injEq, Prod.mk.injEq, decide_eq_false_iff_not] at h
    omega

/-- At a literal the visit takes it whole, unless it is too long for the storage. -/
theorem visitQuoted_of_literal {pre r content rest : Text}
    (h : StartsLiteral (skip r) content rest) (storage : Text) :
    ∃ storage' n, Deserializer.visitQuoted (pre ++ r) storage pre.length = some (true, storage', n) ∧
      (content.length < storage.length → n = (pre ++ r).length - rest.length ∧
        storage' = if content = [] then storage
          else content ++ 0 :: storage.drop (content.length + 1)) := by
  obtain ⟨hc, hr⟩ := h
  have hgap := gap_add_skip r
  have hpos : 0 < (parseStringLiteral (skip r) storage).1 :=
    Nat.lt_of_lt_of_le (by decide) (parseStringLiteral_ge _ _)
  refine ⟨(parseStringLiteral (skip r) storage).2,
    pre.length + gap r + (parseStringLiteral (skip r) storage).1, ?_, fun hfit => ?_⟩
  · rw [visitQuoted_eq, decide_eq_true hpos]
  rw [hr] at hgap ⊢
  simp only [List.length_cons, List.length_append] at hgap
  by_cases hne : content = []
  · subst hne
    rw [List.nil_append, parseStringLiteral_empty, if_pos rfl, List.length_append]
    exact ⟨by simp only [List.length_nil] at hgap; omega, rfl⟩
  · rw [parseStringLiteral_at_quote hc hne hfit, if_neg hne, List.length_append]
    exact ⟨by omega, rfl⟩

/-- **Only literals are accepted, exactly**: if and only if a literal stands behind the blanks, and
where it is empty the storage shows nothing already. -/
theorem acceptsLiteralOnly_iff (input storage : Text) (length : Nat) :
    AcceptsLiteralOnly input storage length ↔
      ∃ content rest, StartsLiteral (skip (input.drop length)) content rest ∧
        (content = [] → storage = [] ∨ storage.head? = some 0) := by
  constructor
  · rintro ⟨htaken, hrefused⟩
    have hliteral : ∃ content rest, StartsLiteral (skip (input.drop length)) content rest := by
      by_contra hno
      exact visitQuoted_ne_false (hrefused hno)
    obtain ⟨content, rest, hstarts⟩ := hliteral
    refine ⟨content, rest, hstarts, fun hnil => ?_⟩
    subst hnil
    obtain ⟨pre, r, rfl, rfl, hthere⟩ := hstarts.split
    rw [List.drop_left] at htaken
    obtain ⟨storage', n, hvisit, hshown⟩ := @visitQuoted_of_literal pre r [] rest hthere storage
    cases storage with
    | nil => exact Or.inl rfl
    | cons c storage =>
      obtain ⟨-, hstorage⟩ := hshown (Nat.zero_lt_succ _)
      obtain ⟨content, rest', hstarts', hheld⟩ := htaken storage' n hvisit
      obtain ⟨rfl, -⟩ := hthere.unique hstarts'
      obtain ⟨-, hnul⟩ := hheld (Nat.zero_lt_succ _)
      rw [if_pos rfl] at hstorage
      rw [hstorage, List.nil_append, List.cons_prefix_cons] at hnul
      exact Or.inr (congrArg some hnul.1.symm)
  · rintro ⟨content, rest, hstarts, hempty⟩
    refine ⟨fun storage' n hvisit => ⟨content, rest, hstarts, fun hfit => ?_⟩,
      fun hno => absurd ⟨content, rest, hstarts⟩ hno⟩
    obtain ⟨pre, r, rfl, rfl, hthere⟩ := hstarts.split
    obtain ⟨storage'', n', hvisit', hshown⟩ := @visitQuoted_of_literal pre r content rest hthere storage
    rw [hvisit] at hvisit'
    cases hvisit'
    obtain ⟨hn, hstorage⟩ := hshown hfit
    refine ⟨hn, ?_⟩
    by_cases hne : content = []
    · subst hne
      rw [hstorage, if_pos rfl]
      cases storage with
      | nil => exact absurd hfit (Nat.lt_irrefl 0)
      | cons c storage =>
        obtain rfl : c = 0 := by simpa using hempty rfl
        exact ⟨storage, rfl⟩
    · rw [hstorage, if_neg hne]
      exact ⟨storage.drop (content.length + 1), by rw [List.append_assoc]; rfl⟩

/-- `12` is accepted as a literal. -/
theorem number_is_no_literal :
    ¬ AcceptsLiteralOnly (text "12\r\n") (List.replicate 4 65) 0 := by
  rintro ⟨htaken, -⟩
  have hvisit : Deserializer.visitQuoted (text "12\r\n") (List.replicate 4 65) 0 =
      some (true, List.replicate 4 65, 2) := by decide
  obtain ⟨content, rest, ⟨-, hr⟩, -⟩ := htaken _ _ hvisit
  have hhead : (skip ((text "12\r\n").drop 0)).head? = some quote := by rw [hr]; rfl
  exact absurd hhead (by decide +kernel)

end ATLink
