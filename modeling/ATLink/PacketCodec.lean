import ATLink.CommandCodec
import ATLink.Grammar
import ATLink.ObjectReuse
import ATLink.QuotedCodec

/-!
# Packets, written and read back

`APacket::accept` is there for both visitors: the tag, the commas and the CRLF that it writes it also
reads.  Where the tag can be found behind blanks and the values of the enums can be told apart in a
text, what is lost between the two is lost in the quoted texts.

* `Mirrors` — a field that is written, and a field of its type that is read: ints in range, enums
  without strings that hold a declared value, enums with strings of which none starts another or
  with a blank and no two carry the same value, and quoted texts.
* `CommandField.ShownBy` — the field holds what was written.
* `CommandField.Survives` — the text is not quoted, or holds no quote and fits the storage.

Principal result: `packet_roundTrips_iff` — such a packet is read back in full, with all its values
and whatever follows it, exactly when every field survives.
-/

namespace ATLink

open StringView CharConv Deserializer Serializer

/-! ## Fields -/

/-- A field that is written, and one of its type that is read.  The value is one that a text can give
back: an int in range, a declared value of an enum without strings, or one of a `CustomEnum`. -/
inductive Mirrors : CommandField → ResponseField → Prop where
  | int {i : Int} (old : Int) : INT_MIN ≤ i → i ≤ INT_MAX → Mirrors (.int i) (.int old)
  | quoted (view storage : Text) : Mirrors (.quoted view) (.quoted storage)
  | numeric {values : List Int} {e : NumericEnum values} {v : Int} (old : Int) : v ∈ values →
      e.converter.toInt v = v → Mirrors (.enum ⟨.numeric e.converter, v⟩) (e.field old)
  | custom {e : CustomEnum} {k : Text} {v : Int} (old : Int) : (k, v) ∈ e.converter.map →
      Mirrors (.enum ⟨.custom e.converter, v⟩) (.enum ⟨.custom e.converter, old⟩)

namespace CommandField

/-- The field holds the value, or the text with a NUL behind it. -/
def ShownBy : CommandField → ResponseField → Prop
  | .int i, .int j => j = i
  | .quoted view, .quoted storage => view ++ [0] <+: storage
  | .enum e, .enum e' => e'.value = e.value
  | _, _ => False

/-- Nothing of the value is lost on the way. -/
def Survives : CommandField → ResponseField → Prop
  | .quoted view, .quoted storage =>
    quote ∉ view ∧ view.length < storage.length ∧ (view = [] → storage.head? = some 0)
  | _, _ => True

end CommandField

section Fields

variable {f : CommandField} {g : ResponseField}

theorem parseStringLiteral_length (inp out : Text) : (parseStringLiteral inp out).2.length = out.length := by
  by_cases h : LiteralFits inp out.length
  · obtain ⟨skipped, content, rest, rfl, hs, hc, hne, hfit⟩ := h
    rw [parseStringLiteral_literal hs hc hne hfit, List.length_append, List.length_cons,
      List.length_drop]
    omega
  · rw [parseStringLiteral_misses h]

/-- A visit at the quote that starts the encoding of a text. -/
theorem visitQuoted_encoded (view storage pre r : Text) :
    Deserializer.visitQuoted (pre ++ (encodeQuoted view ++ r)) storage pre.length =
      some (true, (parseStringLiteral (encodeQuoted view ++ r) storage).2,
        pre.length + (parseStringLiteral (encodeQuoted view ++ r) storage).1) := by
  have hskip : skip (encodeQuoted view ++ r) = encodeQuoted view ++ r := by
    have hhead : ∀ c ∈ (encodeQuoted view ++ r).head?, c ∉ blanks := fun c hc => by
      rw [encodeQuoted_eq] at hc
      cases Option.some.inj hc
      decide
    exact skip_append Blanks.nil hhead
  have hpos : 0 < (parseStringLiteral (encodeQuoted view ++ r) storage).1 :=
    Nat.lt_of_lt_of_le (by decide) (parseStringLiteral_ge _ _)
  have hgap : gap (encodeQuoted view ++ r) = 0 := by rw [gap, hskip, Nat.sub_self]
  rw [visitQuoted_eq, hskip, hgap, decide_eq_true hpos, Nat.add_zero]

/-- A text that survives is taken as it was written, and stands in the storage. -/
theorem parseStringLiteral_survives {view storage : Text}
    (h : (CommandField.quoted view).Survives (.quoted storage)) (r : Text) :
    (parseStringLiteral (encodeQuoted view ++ r) storage).1 = (encodeQuoted view).length ∧
      view ++ [0] <+: (parseStringLiteral (encodeQuoted view ++ r) storage).2 := by
  obtain ⟨hquote, hfit, hnul⟩ := h
  have hlen : (encodeQuoted view).length = view.length + 2 := by
    rw [encodeQuoted_length, List.count_eq_zero.2 hquote]
    omega
  have hinput : encodeQuoted view ++ r = quote :: (view ++ quote :: r) := by
    rw [encodeQuoted_of_not_mem hquote]
    simp only [List.cons_append, List.append_assoc, List.nil_append]
  rw [hinput, hlen]
  by_cases hne : view = []
  · subst hne
    rw [List.nil_append, parseStringLiteral_empty]
    refine ⟨rfl, ?_⟩
    obtain ⟨tail, htail⟩ := List.head?_eq_some_iff.1 (hnul rfl)
    exact ⟨tail, htail.symm⟩
  · rw [parseStringLiteral_at_quote hquote hne hfit]
    exact ⟨rfl, storage.drop (view.length + 1), by rw [List.append_assoc]; rfl⟩

/-- Any other text is not what the storage holds afterwards. -/
theorem parseStringLiteral_not_survives {view storage : Text}
    (h : ¬ (CommandField.quoted view).Survives (.quoted storage)) (r : Text) :
    ¬ view ++ [0] <+: (parseStringLiteral (encodeQuoted view ++ r) storage).2 := by
  intro hshown
  have hfit : view.length < storage.length := by
    have hle := hshown.length_le
    rw [parseStringLiteral_length, List.length_append, List.length_singleton] at hle
    omega
  by_cases hquote : quote ∈ view
  · -- the storage goes on with the backslash where the text has the quote
    obtain ⟨a, c, rfl, ha⟩ := List.eq_append_cons_of_mem hquote
    have hcontent : quote ∉ a ++ [backslash] := by
      rw [List.mem_append, List.mem_singleton]
      exact fun h => h.elim ha (by decide)
    rw [List.length_append, List.length_cons] at hfit
    have hroom : (a ++ [backslash]).length < storage.length := by
      rw [List.length_append, List.length_singleton]
      omega
    have hinput : encodeQuoted (a ++ quote :: c) ++ r =
        quote :: (a ++ [backslash] ++ quote :: (escape c ++ [quote] ++ r)) := by
      rw [encodeQuoted_append a c ha]
      simp only [List.cons_append, List.append_assoc]
    rw [hinput, parseStringLiteral_at_quote hcontent (by simp) hroom, List.append_assoc,
      List.append_assoc, List.prefix_append_right_inj, List.cons_append, List.cons_append,
      List.cons_prefix_cons] at hshown
    exact absurd hshown.1 (by decide)
  · -- an empty text leaves the storage alone
    have hnot : ¬ (view = [] → storage.head? = some 0) := fun hnul => h ⟨hquote, hfit, hnul⟩
    rw [Classical.not_imp] at hnot
    obtain ⟨rfl, hhead⟩ := hnot
    have hinput : encodeQuoted [] ++ r = quote :: quote :: r := rfl
    rw [hinput, parseStringLiteral_empty] at hshown
    obtain ⟨tail, rfl⟩ := hshown
    exact hhead rfl

/-- **A field that survives** is read where it was written, and holds the value. -/
theorem visitField_encoded (hm : Mirrors f g) (hs : f.Survives g) (pre : Text) {r : Text} (hr : NoDigit r) :
    ∃ g', Deserializer.visitField (pre ++ (encodeField f ++ r)) g pre.length =
        some (true, g', (pre ++ encodeField f).length) ∧ f.ShownBy g' := by
  cases hm with
  | @int i old hlo hhi =>
    have hspells : FieldKind.int.Spells (toChars i) i := ⟨isNumeral_toChars i, hlo, hhi⟩
    exact ⟨_, visitField_spelled Blanks.nil hspells old pre hr, rfl⟩
  | quoted view storage =>
    obtain ⟨hlength, hshown⟩ := parseStringLiteral_survives hs r
    refine ⟨.quoted _, ?_, hshown⟩
    rw [encodeField, Deserializer.visitField, visitQuoted_encoded, hlength, List.length_append]
    rfl
  | @numeric values e v old hv hint =>
    have hspells : (FieldKind.numeric values e).Spells (toChars v) v := ⟨isNumeral_toChars v, hv⟩
    have htext : encodeField (.enum ⟨.numeric e.converter, v⟩) = toChars v :=
      congrArg toChars hint
    rw [htext]
    exact ⟨_, visitField_spelled Blanks.nil hspells old pre hr, rfl⟩
  | @custom e k v old hk =>
    have hspells : (FieldKind.custom e).Spells k v := hk
    have htext : encodeField (.enum ⟨.custom e.converter, v⟩) = k := by
      show (e.converter.lookupString v).getD [] = k
      rw [EnumCustomStringConverter.lookupString_of_mem e.distinct hk]
      rfl
    rw [htext]
    exact ⟨_, visitField_spelled Blanks.nil hspells old pre hr, rfl⟩

/-- A field that does not survive holds something else afterwards. -/
theorem visitField_not_shown (hm : Mirrors f g) (hs : ¬ f.Survives g) (pre r : Text) {ok : Bool}
    {g' : ResponseField} {n : Nat}
    (h : Deserializer.visitField (pre ++ (encodeField f ++ r)) g pre.length = some (ok, g', n)) :
    ¬ f.ShownBy g' := by
  cases hm with
  | quoted view storage =>
    rw [encodeField, Deserializer.visitField, visitQuoted_encoded] at h
    cases h
    exact parseStringLiteral_not_survives hs r
  | int => exact absurd trivial hs
  | numeric => exact absurd trivial hs
  | custom => exact absurd trivial hs

end Fields

/-! ## Packets -/

/-- The fields are read from their encoding where all of them survive. -/
theorem visitWithCommas_encoded {fs : List CommandField} {gs : List ResponseField}
    (hm : List.Forall₂ Mirrors fs gs) (hs : List.Forall₂ CommandField.Survives fs gs) (pre : Text)
    {r : Text} (hr : NoDigit r) : ∃ gs',
      visitWithCommas (Deserializer.visitor (pre ++ (encodeFields fs ++ r))) gs pre.length =
        some (true, gs', (pre ++ encodeFields fs).length) ∧
      List.Forall₂ CommandField.ShownBy fs gs' := by
  induction hm generalizing pre with
  | nil => exact ⟨[], by rw [visitWithCommas]; simp [encodeFields], .nil⟩
  | @cons f g fs gs hf hfs ih =>
    cases hs with
    | cons hsf hsfs =>
      cases hfs with
      | nil =>
        have he : encodeFields [f] = encodeField f := by simp [encodeFields, List.intercalate]
        obtain ⟨g', hvisit, hshown⟩ := visitField_encoded hf hsf pre hr
        refine ⟨[g'], ?_, .cons hshown .nil⟩
        rw [he, visitWithCommas, visitor_visit, hvisit]
        rfl
      | @cons f2 g2 fs gs hf2 hfs =>
        -- the comma behind the field, and the others behind it
        have hinput : pre ++ (encodeFields (f :: f2 :: fs) ++ r) =
            pre ++ (encodeField f ++ (Constants.Comma ++ (encodeFields (f2 :: fs) ++ r))) := by
          rw [encodeFields_cons_cons]
          simp only [List.append_assoc]
        have hdigit : NoDigit (Constants.Comma ++ (encodeFields (f2 :: fs) ++ r)) :=
          Blanks.nil.noDigit comma_ne_nil noDigit_comma _
        obtain ⟨g', hvisit, hshown⟩ := visitField_encoded hf hsf pre hdigit
        have hcomma := visitSequence_literal literal_comma Blanks.nil (pre ++ encodeField f)
          (encodeFields (f2 :: fs) ++ r)
        obtain ⟨gs', hrest, hrestShown⟩ := ih hsfs (pre ++ encodeField f ++ Constants.Comma)
        simp only [List.nil_append, List.append_assoc] at hcomma hrest
        refine ⟨g' :: gs', ?_, .cons hshown hrestShown⟩
        rw [hinput, visitWithCommas]
        simp only [visitor_visit, visitor_visitSequence, hvisit, hcomma, hrest, Option.map_some,
          encodeFields_cons_cons]

/-- The first field is visited first. -/
theorem visitWithCommas_head {S A : Type} {V : Visitor S A} {a : A} {as as' : List A} {s s' : S} {ok : Bool}
    (h : visitWithCommas V (a :: as) s = some (ok, as', s')) :
    ∃ ok' a' u as'', V.visit a s = some (ok', a', u) ∧ as' = a' :: as'' := by
  cases as with
  | nil =>
    obtain ⟨⟨ok', a', u⟩, hvisit, hr⟩ := Option.map_eq_some_iff.1 h
    cases hr
    exact ⟨_, a', _, [], hvisit, rfl⟩
  | cons b as =>
    rw [visitWithCommas] at h
    split at h
    · cases h
    · rename_i a' u hvisit
      cases h
      exact ⟨false, a', _, b :: as, hvisit, rfl⟩
    · rename_i a' u hvisit
      split at h
      · cases h
      · cases h
        exact ⟨true, a', u, b :: as, hvisit, rfl⟩
      · obtain ⟨r, -, hr⟩ := Option.map_eq_some_iff.1 h
        cases hr
        exact ⟨true, a', u, r.2.1, hvisit, rfl⟩

/-- Where one of them does not survive it holds something else afterwards. -/
theorem visitWithCommas_not_shown {fs : List CommandField} {gs : List ResponseField}
    (hm : List.Forall₂ Mirrors fs gs) (hs : ¬ List.Forall₂ CommandField.Survives fs gs) (pre : Text)
    {r : Text} {ok : Bool} {gs' : List ResponseField} {n : Nat}
    (h : visitWithCommas (Deserializer.visitor (pre ++ (encodeFields fs ++ r))) gs pre.length =
      some (ok, gs', n)) : ¬ List.Forall₂ CommandField.ShownBy fs gs' := by
  induction hm generalizing pre ok gs' n with
  | nil => exact absurd .nil hs
  | @cons f g fs gs hf hfs ih =>
    intro hshown
    obtain ⟨t, ht⟩ : ∃ t, encodeFields (f :: fs) = encodeField f ++ t := ⟨_, encodeFields_cons f fs⟩
    obtain ⟨ok', g', u, gs'', hvisit, rfl⟩ := visitWithCommas_head h
    have hfield : Deserializer.visitField (pre ++ (encodeField f ++ (t ++ r))) g pre.length =
        some (ok', g', u) := by
      rw [← List.append_assoc (encodeField f), ← ht]
      exact hvisit
    -- the field itself survives
    have hsf : f.Survives g := by_contra fun hnot =>
      visitField_not_shown hf hnot pre (t ++ r) hfield (List.forall₂_cons.1 hshown).1
    have hsfs : ¬ List.Forall₂ CommandField.Survives fs gs := fun hall => hs (.cons hsf hall)
    cases hfs with
    | nil => exact hsfs .nil
    | @cons f2 g2 fs gs hf2 hfs =>
      have hinput : pre ++ (encodeFields (f :: f2 :: fs) ++ r) =
          pre ++ (encodeField f ++ (Constants.Comma ++ (encodeFields (f2 :: fs) ++ r))) := by
        rw [encodeFields_cons_cons]
        simp only [List.append_assoc]
      have hdigit : NoDigit (Constants.Comma ++ (encodeFields (f2 :: fs) ++ r)) :=
        Blanks.nil.noDigit comma_ne_nil noDigit_comma _
      obtain ⟨g'', hvisit', -⟩ := visitField_encoded hf hsf pre hdigit
      have hcomma := visitSequence_literal literal_comma Blanks.nil (pre ++ encodeField f)
        (encodeFields (f2 :: fs) ++ r)
      simp only [List.nil_append, List.append_assoc] at hcomma
      rw [hinput, visitWithCommas] at h
      simp only [visitor_visit, visitor_visitSequence, hvisit', hcomma] at h
      obtain ⟨⟨ok2, gs2, n2⟩, hrest, hr⟩ := Option.map_eq_some_iff.1 h
      cases hr
      have hothers : visitWithCommas (Deserializer.visitor (pre ++ encodeField f ++ Constants.Comma ++
          (encodeFields (f2 :: fs) ++ r))) (g2 :: gs) (pre ++ encodeField f ++ Constants.Comma).length =
          some (ok2, gs2, n2) := by
        simp only [List.append_assoc]
        exact hrest
      exact ih hsfs _ hothers (List.forall₂_cons.1 hshown).2

/-- **The round trip of a packet, exactly**: with a tag that is empty or starts with no blank, and
fields that `Mirrors` describes, what `accept` of a packet has written, `accept` with the same tag
takes in full, whatever follows it, and every field holds the value written, if and only if no
quoted text holds a quote, each fits its storage, and the storage of an empty one starts with a
NUL. -/
theorem packet_roundTrips_iff {tag : Text} (htag : tag = [] ∨ Literal tag) {fs fs' : List CommandField}
    {gs : List ResponseField} (hm : List.Forall₂ Mirrors fs gs) {buf : Text} {s : Serializer}
    (hwrite : APacket.accept Serializer.visitor tag fs (Serializer.init buf) = some (true, fs', s))
    (further : Text) :
    (∃ gs', APacket.accept (Deserializer.visitor (s.output ++ further)) tag gs 0 =
        some (true, gs', s.output.length) ∧ List.Forall₂ CommandField.ShownBy fs gs') ↔
      List.Forall₂ CommandField.Survives fs gs := by
  rw [Serializer.init_eq] at hwrite
  obtain ⟨-, houtput⟩ := acceptWithTerm_accepts (by decide) hwrite
  rw [List.nil_append] at houtput
  have hinput : s.output ++ further = tag ++ (encodeFields fs ++ (Constants.CrLf ++ further)) := by
    rw [houtput, encodePacket]
    simp only [List.append_assoc]
  have hlength : s.output.length = (tag ++ (encodeFields fs ++ Constants.CrLf)).length := by
    rw [houtput, encodePacket, List.append_assoc]
  have hdigit : NoDigit (Constants.CrLf ++ further) :=
    Blanks.nil.noDigit (by decide) noDigit_crLf further
  -- the visit of the tag, if there is one
  have hstart : (if 0 < tag.length then
        Deserializer.visitSequence (tag ++ (encodeFields fs ++ (Constants.CrLf ++ further))) tag 0
      else some (true, 0)) = some (true, tag.length) := by
    rcases htag with rfl | htag
    · rfl
    · rw [if_pos (List.length_pos_iff.2 htag.1)]
      exact visitSequence_literal htag Blanks.nil [] _
  rw [hinput, hlength]
  unfold APacket.accept acceptWithTerm
  simp only [visitor_visitSequence, hstart]
  constructor
  · rintro ⟨gs', haccept, hshown⟩
    by_contra hs
    split at haccept
    · cases haccept
    · rename_i hfields
      cases haccept
    · rename_i gs2 n hfields
      obtain ⟨r, -, hr⟩ := Option.map_eq_some_iff.1 haccept
      simp only [Prod.mk.injEq] at hr
      obtain ⟨-, rfl, -⟩ := hr
      exact visitWithCommas_not_shown hm hs tag hfields hshown
  · intro hs
    obtain ⟨gs', hfields, hshown⟩ := visitWithCommas_encoded hm hs tag hdigit
    have hterm := visitSequence_literal literal_crLf Blanks.nil (tag ++ encodeFields fs) further
    simp only [List.nil_append, List.append_assoc] at hterm
    refine ⟨gs', ?_, hshown⟩
    simp only [hfields, hterm, Option.map_some]

/-- An int, a text and an empty text. -/
theorem packet_roundTrips_iff_example :
    ∃ s, APacket.accept Serializer.visitor (text "+R:") [.int 7, .quoted (text "ab"), .quoted []]
        (Serializer.init (List.replicate 32 0)) =
          some (true, [.int 7, .quoted (text "ab"), .quoted []], s) ∧
      ((∃ gs', APacket.accept (Deserializer.visitor (s.output ++ text "OK")) (text "+R:")
            [.int 0, .quoted (List.replicate 4 65), .quoted (List.replicate 4 65)] 0 =
          some (true, gs', s.output.length) ∧
        List.Forall₂ CommandField.ShownBy [.int 7, .quoted (text "ab"), .quoted []] gs') ↔
      List.Forall₂ CommandField.Survives [.int 7, .quoted (text "ab"), .quoted []]
        [.int 0, .quoted (List.replicate 4 65), .quoted (List.replicate 4 65)]) := by
  have hwrite : (APacket.accept Serializer.visitor (text "+R:")
      [.int 7, .quoted (text "ab"), .quoted []] (Serializer.init (List.replicate 32 0))).map
      (fun r => (r.1, r.2.1)) = some (true, [.int 7, .quoted (text "ab"), .quoted []]) := by
    rfl
  obtain ⟨⟨ok, fs, s⟩, haccept, hpair⟩ := Option.map_eq_some_iff.1 hwrite
  obtain ⟨rfl, rfl⟩ := Prod.mk.inj hpair
  have hliteral : Literal (text "+R:") := ⟨by decide, by decide +kernel⟩
  have hmirrors : List.Forall₂ Mirrors [.int 7, .quoted (text "ab"), .quoted []]
      [.int 0, .quoted (List.replicate 4 65), .quoted (List.replicate 4 65)] :=
    .cons (.int 0 (by decide) (by decide)) (.cons (.quoted _ _) (.cons (.quoted _ _) .nil))
  exact ⟨s, haccept, packet_roundTrips_iff (Or.inr hliteral) hmirrors haccept (text "OK")⟩

end ATLink
