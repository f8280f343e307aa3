import ATLink.EnumLookup
import ATLink.Send

/-!
# What a command line says

The texts that commands of one shape are written as.

* `NumericKind`, `CustomKind`, `CommandKind` — what the type of a field fixes: the enum types with
  the conditions that the code checks at compile time, and on the strings of a table.
* `encodeTail` — the fields behind the first one, each after its comma.
* `Delimited` — quoted, or written without commas and quotes.
* `OneLine` — the output ends with its only CR.

Principal results: `escape_quote_ne_encodeTail` — a reading in which a closing quote is an inner
one never ends together with the fields of the other; `command_injective` — the text of a command
determines its fields; `oneLine_iff` — it is one line exactly when no quoted text holds a CR.
-/

namespace ATLink

open StringView CharConv Serializer

/-- The characters that no string of a table holds: comma, quote, backslash, CR and LF. -/
def reserved : Text := text ",\"\\\r\n"

/-- An enum type without a table: its values lie between `lo` and `hi`, it is no larger than
`int`, and the conversion to `int` wraps around. -/
structure NumericKind where
  converter : EnumStringConverter Int
  lo : Int
  hi : Int
  width : hi - lo < 2 ^ 32
  cast : ∀ v, lo ≤ v → v ≤ hi → converter.toInt v = v.bmod (2 ^ 32)

/-- An enum type with a table: no two strings for a value, and no reserved characters. -/
structure CustomKind where
  converter : EnumCustomStringConverter Int
  distinct : (converter.map.map (·.2)).Nodup
  nonempty : ∀ k ∈ converter.keys, k ≠ []
  plain : ∀ k ∈ converter.keys, ∀ c ∈ reserved, c ∉ k

/-- The type of a field. -/
inductive CommandKind where
  | int
  | quoted
  | numeric (type : NumericKind)
  | custom (type : CustomKind)

/-- A field of the type. -/
inductive CommandKind.Holds : CommandKind → CommandField → Prop where
  | int (i : Int) : Holds .int (.int i)
  | quoted (view : Text) : Holds .quoted (.quoted view)
  | numeric {type : NumericKind} {value : Int} : type.lo ≤ value → value ≤ type.hi →
      Holds (.numeric type) (.enum ⟨.numeric type.converter, value⟩)
  | custom {type : CustomKind} (value : Int) :
      Holds (.custom type) (.enum ⟨.custom type.converter, value⟩)

/-- A field that is quoted, or written without commas and quotes. -/
def Delimited (f : CommandField) : Prop :=
  (∃ view, f = .quoted view) ∨ comma ∉ encodeField f ∧ quote ∉ encodeField f

/-- The fields behind the first one. -/
def encodeTail (fs : List CommandField) : Text := fs.flatMap fun f => comma :: encodeField f

theorem encodeTail_cons (f : CommandField) (fs : List CommandField) :
    encodeTail (f :: fs) = comma :: (encodeField f ++ encodeTail fs) := rfl

theorem encodeFields_cons (f : CommandField) (fs : List CommandField) :
    encodeFields (f :: fs) = encodeField f ++ encodeTail fs := by
  induction fs generalizing f with
  | nil => simp [encodeFields, encodeTail, List.intercalate]
  | cons g fs ih => rw [encodeFields_cons_cons, ih, encodeTail_cons]; rfl

theorem encodeTail_head (fs : List CommandField) :
    encodeTail fs = [] ∨ ∃ r, encodeTail fs = comma :: r := by
  cases fs with
  | nil => exact Or.inl rfl
  | cons f fs => exact Or.inr ⟨_, encodeTail_cons f fs⟩

/-! ## Readings out of phase -/

/-- The first quote in the fields behind a comma opens a text: the character before it is that
comma. -/
theorem encodeTail_first_quote : ∀ {gs : List CommandField}, (∀ g ∈ gs, Delimited g) →
    quote ∉ encodeTail gs ∨ ∃ a w gs', encodeTail gs =
        a ++ [comma] ++ quote :: (escape w ++ quote :: encodeTail gs') ∧ quote ∉ a ∧
      gs'.length < gs.length ∧ ∀ g ∈ gs', Delimited g
  | [], _ => Or.inl List.not_mem_nil
  | g :: gs, h => by
    have hgs : ∀ x ∈ gs, Delimited x := fun x hx => h x (List.mem_cons_of_mem g hx)
    rw [encodeTail_cons]
    rcases h g List.mem_cons_self with ⟨w, rfl⟩ | ⟨-, hquote⟩
    · refine Or.inr ⟨[], w, gs, ?_, List.not_mem_nil, Nat.lt_succ_self _, hgs⟩
      rw [encodeField, encodeQuoted_eq]
      simp only [List.cons_append, List.append_assoc, List.nil_append]
    · have hnot : ∀ {a}, quote ∉ a → quote ∉ comma :: (encodeField g ++ a) := by
        intro a ha hmem
        rcases List.mem_cons.1 hmem with hc | hmem
        · exact absurd hc (by decide)
        · exact (List.mem_append.1 hmem).elim hquote ha
      rcases encodeTail_first_quote hgs with hno | ⟨a, w, gs', heq, ha, hlt, hgs'⟩
      · exact Or.inl (hnot hno)
      · refine Or.inr ⟨comma :: (encodeField g ++ a), w, gs', ?_, hnot ha,
          Nat.lt_succ_of_lt hlt, hgs'⟩
        rw [heq]
        simp only [List.cons_append, List.append_assoc]

/-- **No reading out of phase**: where one reading is inside a text and the other one behind a
field, they never end together. -/
theorem escape_quote_ne_encodeTail (fs gs : List CommandField) (hf : ∀ f ∈ fs, Delimited f)
    (hg : ∀ g ∈ gs, Delimited g) (u : Text) : escape u ++ quote :: encodeTail fs ≠ encodeTail gs := by
  intro h
  rcases encodeTail_first_quote hg with hno | ⟨a, w, gs', heq, ha, hlt, hgs'⟩
  · exact hno (h ▸ List.mem_append_right _ List.mem_cons_self)
  · rw [heq] at h
    have hbefore : quote ∉ a ++ [comma] := by
      rw [List.mem_append, List.mem_singleton]
      exact fun hmem => hmem.elim ha (by decide)
    by_cases hu : quote ∈ u
    · -- the first quote is an inner one of `u`, after a backslash
      obtain ⟨b, c, rfl, hb⟩ := List.eq_append_cons_of_mem hu
      have hinner : quote ∉ b ++ [backslash] := by
        rw [List.mem_append, List.mem_singleton]
        exact fun hmem => hmem.elim hb (by decide)
      have hsplit : escape (b ++ quote :: c) ++ quote :: encodeTail fs =
          b ++ [backslash] ++ quote :: (escape c ++ quote :: encodeTail fs) := by
        rw [escape_append hb]
        simp only [List.cons_append, List.append_assoc, List.nil_append]
      rw [hsplit] at h
      have hlast := congrArg List.getLast? (append_cons_inj hinner hbefore h).1
      simp only [List.getLast?_concat, Option.some.injEq] at hlast
      exact absurd hlast (by decide)
    · -- the first quote closes `u`, and now the other reading is inside a text
      rw [escape_of_not_mem hu] at h
      exact escape_quote_ne_encodeTail gs' fs hgs' hf w (append_cons_inj hu hbefore h).2.symm
termination_by fs.length + gs.length

/-- What an escaped text starts with. -/
theorem escape_cons_ne (c : Byte) (v r s : Text) : escape (c :: v) ++ r ≠ quote :: s := by
  intro h
  rw [escape] at h
  split at h
  · exact absurd (List.cons.inj h).1 (by decide)
  · rename_i hc
    exact hc (List.cons.inj h).1

/-- Two texts that are written alike with delimited fields behind them are the same. -/
theorem escape_inj {fs gs : List CommandField} (hf : ∀ f ∈ fs, Delimited f)
    (hg : ∀ g ∈ gs, Delimited g) : ∀ {u v : Text},
      escape u ++ quote :: encodeTail fs = escape v ++ quote :: encodeTail gs →
        u = v ∧ encodeTail fs = encodeTail gs
  | [], [], h => ⟨rfl, (List.cons.inj h).2⟩
  | [], c :: v, h => absurd h.symm (escape_cons_ne c v _ _)
  | c :: u, [], h => absurd h (escape_cons_ne c u _ _)
  | c :: u, d :: v, h => by
    -- a backslash is a character of one text and belongs to an inner quote of the other
    have hphase : ∀ {fs gs : List CommandField} {u v : Text}, (∀ f ∈ fs, Delimited f) →
        (∀ g ∈ gs, Delimited g) →
        quote :: (escape u ++ quote :: encodeTail fs) ≠ escape v ++ quote :: encodeTail gs := by
      intro fs gs u v hf hg h
      cases v with
      | nil => exact escape_quote_ne_encodeTail fs gs hf hg u (List.cons.inj h).2
      | cons e v => exact escape_cons_ne e v _ _ h.symm
    rw [escape, escape] at h
    split at h <;> split at h
    · rename_i hc hd
      obtain ⟨hu, ht⟩ := escape_inj hf hg (List.cons.inj (List.cons.inj h).2).2
      exact ⟨by rw [hc, hd, hu], ht⟩
    · rename_i hc hd
      subst hc
      exact absurd (List.cons.inj h).2 (hphase hf hg)
    · rename_i hc hd
      subst hd
      exact absurd (List.cons.inj h).2.symm (hphase hg hf)
    · obtain ⟨hcd, h⟩ := List.cons.inj h
      obtain ⟨hu, ht⟩ := escape_inj hf hg h
      exact ⟨by rw [hcd, hu], ht⟩

/-! ## Fields of one type -/

/-- Printing is one-to-one. -/
theorem toChars_inj {v w : Int} (h : toChars v = toChars w) : v = w :=
  (isNumeral_toChars v).unique (h ▸ isNumeral_toChars w)

theorem toChars_plain {c : Byte} (hdigit : isDigit c = false) (hminus : c ≠ minus) (v : Int) :
    c ∉ toChars v := by
  intro hmem
  rcases (isNumeral_toChars v).chars c hmem with h | h
  · rw [hdigit] at h
    cases h
  · exact hminus h

/-- The conversion to `int` tells the values of an enum type apart. -/
theorem NumericKind.toInt_inj (type : NumericKind) {v w : Int} (hv : type.lo ≤ v ∧ v ≤ type.hi)
    (hw : type.lo ≤ w ∧ w ≤ type.hi) (h : type.converter.toInt v = type.converter.toInt w) :
    v = w := by
  rw [type.cast v hv.1 hv.2, type.cast w hw.1 hw.2] at h
  have hwidth := type.width
  have hmod : v % (2 ^ 32 : Nat) = w % (2 ^ 32 : Nat) := by
    rw [← Int.bmod_emod, h, Int.bmod_emod]
  omega

/-- The string of a value of a table. -/
theorem CustomKind.string_of {type : CustomKind} {value : Int}
    (h : HasString (.enum ⟨.custom type.converter, value⟩)) :
    encodeEnum ⟨.custom type.converter, value⟩ ∈ type.converter.keys ∧
      (encodeEnum ⟨.custom type.converter, value⟩, value) ∈ type.converter.map := by
  obtain ⟨k, hk, -⟩ := h
  have he : encodeEnum ⟨.custom type.converter, value⟩ = k := by simp [encodeEnum, hk]
  have hmem := EnumCustomStringConverter.lookupString_mem hk
  rw [he]
  exact ⟨EnumCustomStringConverter.mem_keys.2 ⟨value, hmem⟩, hmem⟩

theorem CommandKind.Holds.delimited {kind : CommandKind} {f : CommandField} (h : kind.Holds f)
    (hf : HasString f) : Delimited f := by
  cases h with
  | int i => exact Or.inr ⟨toChars_plain (by decide) (by decide) i, toChars_plain (by decide) (by decide) i⟩
  | quoted view => exact Or.inl ⟨view, rfl⟩
  | numeric hlo hhi => exact Or.inr ⟨toChars_plain (by decide) (by decide) _,
      toChars_plain (by decide) (by decide) _⟩
  | @custom type value =>
    have hkey := (CustomKind.string_of hf).1
    exact Or.inr ⟨type.plain _ hkey comma (by decide), type.plain _ hkey quote (by decide)⟩

/-- Two fields of one type that are written alike with delimited fields behind them are the
same. -/
theorem CommandKind.Holds.inj {kind : CommandKind} {f g : CommandField} {fs gs : List CommandField}
    (hf : kind.Holds f) (hg : kind.Holds g) (hf' : HasString f) (hg' : HasString g)
    (hfs : ∀ f ∈ fs, Delimited f) (hgs : ∀ g ∈ gs, Delimited g)
    (h : encodeField f ++ encodeTail fs = encodeField g ++ encodeTail gs) :
    f = g ∧ encodeTail fs = encodeTail gs := by
  -- a field without commas ends where the comma of the next one stands
  have hsplit : comma ∉ encodeField f → comma ∉ encodeField g →
      encodeField f = encodeField g ∧ encodeTail fs = encodeTail gs := fun hcf hcg =>
    append_inj_of_not_mem hcf hcg (encodeTail_head fs) (encodeTail_head gs) h
  cases hf with
  | int i =>
    cases hg with
    | int j =>
      obtain ⟨he, ht⟩ := hsplit (toChars_plain (by decide) (by decide) i)
        (toChars_plain (by decide) (by decide) j)
      exact ⟨congrArg CommandField.int (toChars_inj he), ht⟩
  | quoted u =>
    cases hg with
    | quoted v =>
      simp only [encodeField, encodeQuoted_eq, List.cons_append, List.append_assoc,
        List.nil_append, List.cons.injEq, true_and] at h
      obtain ⟨rfl, ht⟩ := escape_inj hfs hgs h
      exact ⟨rfl, ht⟩
  | @numeric type v hlo hhi =>
    cases hg with
    | @numeric _ w hlo' hhi' =>
      obtain ⟨he, ht⟩ := hsplit (toChars_plain (by decide) (by decide) _)
        (toChars_plain (by decide) (by decide) _)
      obtain rfl := type.toInt_inj ⟨hlo, hhi⟩ ⟨hlo', hhi'⟩ (toChars_inj he)
      exact ⟨rfl, ht⟩
  | @custom type v =>
    cases hg with
    | @custom _ w =>
      obtain ⟨hkey, hmem⟩ := CustomKind.string_of hf'
      obtain ⟨hkey', hmem'⟩ := CustomKind.string_of hg'
      obtain ⟨he, ht⟩ := hsplit (type.plain _ hkey comma (by decide))
        (type.plain _ hkey' comma (by decide))
      -- no two records of the table have the same string
      have hsame : ((encodeEnum ⟨.custom type.converter, v⟩, v) : Text × Int) =
          (encodeEnum ⟨.custom type.converter, w⟩, w) :=
        List.inj_on_of_nodup_map (type.converter.keys_sorted.imp fun h => ne_of_lt h) hmem hmem' he
      obtain rfl := (Prod.mk.inj hsame).2
      exact ⟨rfl, ht⟩

/-! ## The fields of a command -/

theorem delimited_of_holds {kinds : List CommandKind} {fs : List CommandField}
    (h : List.Forall₂ CommandKind.Holds kinds fs) (hf : ∀ f ∈ fs, HasString f) :
    ∀ f ∈ fs, Delimited f := by
  induction h with
  | nil => intro f hmem; cases hmem
  | cons hhead _ ih =>
    intro f hmem
    rcases List.mem_cons.1 hmem with rfl | hmem
    · exact hhead.delimited (hf f List.mem_cons_self)
    · exact ih (fun x hx => hf x (List.mem_cons_of_mem _ hx)) f hmem

theorem encodeTail_injective {kinds : List CommandKind} {fs gs : List CommandField}
    (hfs : List.Forall₂ CommandKind.Holds kinds fs) (hgs : List.Forall₂ CommandKind.Holds kinds gs)
    (hf : ∀ f ∈ fs, HasString f) (hg : ∀ g ∈ gs, HasString g)
    (h : encodeTail fs = encodeTail gs) : fs = gs := by
  induction hfs generalizing gs with
  | nil => cases hgs; rfl
  | @cons kind f kinds fs hhead htail ih =>
    cases hgs with
    | @cons _ g _ gs hhead' htail' =>
      have hf' : ∀ x ∈ fs, HasString x := fun x hx => hf x (List.mem_cons_of_mem _ hx)
      have hg' : ∀ x ∈ gs, HasString x := fun x hx => hg x (List.mem_cons_of_mem _ hx)
      rw [encodeTail_cons, encodeTail_cons] at h
      obtain ⟨rfl, ht⟩ := hhead.inj hhead' (hf f List.mem_cons_self) (hg g List.mem_cons_self)
        (delimited_of_holds htail hf') (delimited_of_holds htail' hg') (List.cons.inj h).2
      rw [ih htail' hf' hg' ht]

/-- The text between tag and terminator determines the fields. -/
theorem encodeFields_injective {kinds : List CommandKind} {fs gs : List CommandField}
    (hfs : List.Forall₂ CommandKind.Holds kinds fs) (hgs : List.Forall₂ CommandKind.Holds kinds gs)
    (hf : ∀ f ∈ fs, HasString f) (hg : ∀ g ∈ gs, HasString g)
    (h : encodeFields fs = encodeFields gs) : fs = gs := by
  have htail : encodeTail fs = encodeTail gs := by
    cases hfs with
    | nil => cases hgs; rfl
    | cons _ _ =>
      cases hgs with
      | cons _ _ =>
        rw [encodeTail_cons, encodeTail_cons, ← encodeFields_cons, ← encodeFields_cons, h]
  exact encodeTail_injective hfs hgs hf hg htail

namespace PacketCommand

/-- A command that is serialized is written in full. -/
theorem accept_output {cmd : PacketCommand} {buf : Text} {s : Serializer}
    (hterm : cmd.term = Constants.Cr ∨ cmd.term = Constants.CrLf)
    (h : cmd.accept (init buf) = some (true, s)) :
    (∀ f ∈ cmd.fields, HasString f) ∧ s.output = cmd.encoding := by
  have hne : cmd.term ≠ [] := by rcases hterm with h | h <;> rw [h] <;> decide
  obtain ⟨⟨ok, fs', s'⟩, haccept, hpair⟩ := Option.map_eq_some_iff.1 h
  cases hpair
  rw [init_eq] at haccept
  exact acceptWithTerm_accepts hne haccept

/-- **The text of a command determines its fields**: two commands of one shape that are both
serialized, and to equal bytes, carry the same values. -/
theorem command_injective {tag term : Text} {kinds : List CommandKind} {fs gs : List CommandField}
    {buf buf' : Text} {s s' : Serializer} (hterm : term = Constants.Cr ∨ term = Constants.CrLf)
    (hfs : List.Forall₂ CommandKind.Holds kinds fs) (hgs : List.Forall₂ CommandKind.Holds kinds gs)
    (haccept : (PacketCommand.mk tag term fs).accept (init buf) = some (true, s))
    (haccept' : (PacketCommand.mk tag term gs).accept (init buf') = some (true, s'))
    (h : s.output = s'.output) : fs = gs := by
  obtain ⟨hf, hout⟩ := accept_output hterm haccept
  obtain ⟨hg, hout'⟩ := accept_output hterm haccept'
  rw [hout, hout'] at h
  have hfields : encodeFields fs = encodeFields gs :=
    List.append_cancel_left (List.append_cancel_right h)
  exact encodeFields_injective hfs hgs hf hg hfields

/-- `AT+X="a\",1` in two buffers. -/
theorem command_injective_example :
    ∃ s s', (PacketCommand.mk (text "AT+X=") Constants.Cr [.quoted (text "a\\"), .int 1]).accept
          (init (List.replicate 32 0)) = some (true, s) ∧
      (PacketCommand.mk (text "AT+X=") Constants.Cr [.quoted (text "a\\"), .int 1]).accept
          (init (List.replicate 64 65)) = some (true, s') ∧
      s.output = s'.output ∧
      [CommandField.quoted (text "a\\"), .int 1] = [.quoted (text "a\\"), .int 1] := by
  have hout : ((PacketCommand.mk (text "AT+X=") Constants.Cr [.quoted (text "a\\"), .int 1]).accept
      (init (List.replicate 32 0))).map (fun r => (r.1, r.2.output)) =
      some (true, text "AT+X=\"a\\\",1\r") := by decide +kernel
  have hout' : ((PacketCommand.mk (text "AT+X=") Constants.Cr [.quoted (text "a\\"), .int 1]).accept
      (init (List.replicate 64 65))).map (fun r => (r.1, r.2.output)) =
      some (true, text "AT+X=\"a\\\",1\r") := by decide +kernel
  obtain ⟨⟨ok, s⟩, haccept, hpair⟩ := Option.map_eq_some_iff.1 hout
  obtain ⟨⟨ok', s'⟩, haccept', hpair'⟩ := Option.map_eq_some_iff.1 hout'
  simp only [Prod.mk.injEq] at hpair hpair'
  obtain ⟨rfl, hs⟩ := hpair
  obtain ⟨rfl, hs'⟩ := hpair'
  have hkinds : List.Forall₂ CommandKind.Holds [.quoted, .int]
      [.quoted (text "a\\"), .int 1] := .cons (.quoted _) (.cons (.int _) .nil)
  have h : s.output = s'.output := hs.trans hs'.symm
  exact ⟨s, s', haccept, haccept', h,
    command_injective (Or.inl rfl) hkinds hkinds haccept haccept' h⟩

end PacketCommand

/-! ## One line -/

/-- The output has one CR, and ends with it. -/
def OneLine (output : Text) : Prop :=
  output.count carriageReturn = 1 ∧ output.getLast? = some carriageReturn

/-- The strings of a table, if the field has one, are free of CR. -/
def CommandField.KeysWithoutCr : CommandField → Prop
  | .enum ⟨.custom c, _⟩ => ∀ k ∈ c.keys, carriageReturn ∉ k
  | _ => True

theorem oneLine_append_cr_iff (body : Text) :
    OneLine (body ++ [carriageReturn]) ↔ carriageReturn ∉ body := by
  unfold OneLine
  rw [List.getLast?_concat, List.count_append, List.count_singleton_self, Nat.add_eq_right,
    List.count_eq_zero]
  exact and_iff_left rfl

theorem cr_mem_escape (txt : Text) : carriageReturn ∈ escape txt ↔ carriageReturn ∈ txt := by
  induction txt with
  | nil => exact Iff.rfl
  | cons c txt ih =>
    rw [escape]
    split
    · rw [List.mem_cons, List.mem_cons, List.mem_cons, ih]
      exact or_iff_right (by decide)
    · rw [List.mem_cons, List.mem_cons, ih]

/-- Only a quoted text brings a CR into the line. -/
theorem cr_mem_encodeField {f : CommandField} (hf : HasString f) (hkeys : f.KeysWithoutCr) :
    carriageReturn ∈ encodeField f ↔ ∃ view, f = .quoted view ∧ carriageReturn ∈ view := by
  have hplain : ∀ v, carriageReturn ∉ toChars v := toChars_plain (by decide) (by decide)
  rcases f with i | view | ⟨c | c, value⟩
  · exact iff_of_false (hplain i) (by rintro ⟨view, h, -⟩; cases h)
  · have hquote : carriageReturn ∈ encodeField (.quoted view) ↔ carriageReturn ∈ view := by
      rw [encodeField, encodeQuoted_eq, List.cons_append, List.mem_cons, List.mem_append,
        List.mem_singleton, cr_mem_escape]
      exact (or_iff_right (by decide)).trans (or_iff_left (by decide))
    rw [hquote]
    constructor
    · exact fun h => ⟨view, rfl, h⟩
    · rintro ⟨view', h, hmem⟩
      cases h
      exact hmem
  · exact iff_of_false (hplain _) (by rintro ⟨view, h, -⟩; cases h)
  · obtain ⟨k, hk, -⟩ := hf
    have he : encodeField (.enum ⟨.custom c, value⟩) = k := by simp [encodeField, encodeEnum, hk]
    have hkey : k ∈ c.keys := EnumCustomStringConverter.mem_keys.2
      ⟨value, EnumCustomStringConverter.lookupString_mem hk⟩
    rw [he]
    exact iff_of_false (hkeys k hkey) (by rintro ⟨view, h, -⟩; cases h)

theorem cr_mem_encodeTail (fs : List CommandField) :
    carriageReturn ∈ encodeTail fs ↔ ∃ f ∈ fs, carriageReturn ∈ encodeField f := by
  unfold encodeTail
  rw [List.mem_flatMap]
  refine exists_congr fun f => and_congr_right fun _ => ?_
  rw [List.mem_cons]
  exact or_iff_right (by decide)

theorem cr_mem_encodeFields (fs : List CommandField) :
    carriageReturn ∈ encodeFields fs ↔ ∃ f ∈ fs, carriageReturn ∈ encodeField f := by
  cases fs with
  | nil => simp [encodeFields]
  | cons f fs =>
    rw [encodeFields_cons, List.mem_append, cr_mem_encodeTail, List.exists_mem_cons_iff]

/-- **One command, one line**: what a command is serialized to ends with its only CR if and only
if none of its quoted texts holds a CR. -/
theorem oneLine_iff {tag buf : Text} {fs fs' : List CommandField} {s : Serializer}
    (htag : carriageReturn ∉ tag) (hkeys : ∀ f ∈ fs, f.KeysWithoutCr)
    (h : Command.acceptImpl tag fs (init buf) = some (true, fs', s)) :
    OneLine s.output ↔ ∀ view, .quoted view ∈ fs → carriageReturn ∉ view := by
  rw [init_eq] at h
  obtain ⟨hf, hout⟩ := acceptWithTerm_accepts (by decide) h
  have hout : s.output = tag ++ encodeFields fs ++ [carriageReturn] := hout
  rw [hout, oneLine_append_cr_iff, List.mem_append, or_iff_right htag, cr_mem_encodeFields]
  constructor
  · intro hno view hmem hcr
    exact hno ⟨_, hmem, (cr_mem_encodeField (hf _ hmem) (hkeys _ hmem)).2 ⟨view, rfl, hcr⟩⟩
  · rintro hno ⟨f, hmem, hcr⟩
    obtain ⟨view, rfl, hview⟩ := (cr_mem_encodeField (hf f hmem) (hkeys f hmem)).1 hcr
    exact hno view hmem hview

theorem oneLine_iff_example :
    ∃ fs' s, Command.acceptImpl (text "AT+X=") [.int 1, .quoted (text "ab")]
          (init (List.replicate 32 0)) = some (true, fs', s) ∧
      (OneLine s.output ↔ ∀ view, .quoted view ∈ [CommandField.int 1, .quoted (text "ab")] →
        carriageReturn ∉ view) := by
  have hok : (Command.acceptImpl (text "AT+X=") [.int 1, .quoted (text "ab")]
      (init (List.replicate 32 0))).map (·.1) = some true := by decide +kernel
  obtain ⟨⟨ok, fs', s⟩, haccept, rfl⟩ := Option.map_eq_some_iff.1 hok
  refine ⟨fs', s, haccept, oneLine_iff (by decide +kernel) ?_ haccept⟩
  simp [CommandField.KeysWithoutCr]

/-- The text `x` CR `AT+CFUN=0` makes two lines of one command. -/
theorem text_breaks_line :
    ∃ fs' s, Command.acceptImpl (text "AT+X=") [.quoted (text "x\rAT+CFUN=0")]
          (init (List.replicate 64 0)) = some (true, fs', s) ∧ ¬ OneLine s.output := by
  have hout : (Command.acceptImpl (text "AT+X=") [.quoted (text "x\rAT+CFUN=0")]
      (init (List.replicate 64 0))).map (fun r => (r.1, r.2.2.output)) =
      some (true, text "AT+X=\"x\rAT+CFUN=0\"\r") := by decide +kernel
  obtain ⟨⟨ok, fs', s⟩, haccept, hpair⟩ := Option.map_eq_some_iff.1 hout
  obtain ⟨rfl, hs⟩ := Prod.mk.inj hpair
  refine ⟨fs', s, haccept, fun h => ?_⟩
  have hcount : (text "AT+X=\"x\rAT+CFUN=0\"\r").count carriageReturn = 2 := by decide +kernel
  have hs : s.output = text "AT+X=\"x\rAT+CFUN=0\"\r" := hs
  rw [OneLine, hs, hcount] at h
  exact absurd h.1 (by decide)

end ATLink
