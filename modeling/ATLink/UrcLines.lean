import ATLink.UrcFragmentation

/-!
# The lines that `dispatchUrcs` leaves behind

A dispatch takes what the first known URC to accept consumes.  Where all of them refuse, `AnyUrc`
takes an optional CRLF and the line behind it, but no payload is empty: in front of a CRLF it takes
nothing, and what is behind stays.

* `lines` — the complete lines of a text.
* `Dispatchable` — texts that can be read off from the front in such pieces, up to empty lines at
  the end.
* `NothingStuck` — after `dispatchUrcs` no line that is not empty is left.
* `Takes` — the lines in front that one dispatch takes, where the known URCs are read inside their
  line.
* `ReadOff` — lines that can be taken so one after the other, up to empty lines at the end.

Principal result: `nothingStuck_iff` — nothing is stuck if and only if the buffered text is
`Dispatchable`; for known URCs that are read inside their line, if and only if its lines can be read
off.
-/

namespace ATLink

open StringView Deserializer FragmentReader ResponsePack

/-! ## Complete lines -/

/-- The lines of a text that CRLF ends, without it. -/
def lines (x : Text) : List Text :=
  match _h : find Constants.CrLf x with
  | none => []
  | some pos => x.take pos :: lines (x.drop (pos + 2))
termination_by x.length
decreasing_by
  obtain ⟨hpos, hprefix, -⟩ := find_eq_some_iff.1 _h
  have hlen := hprefix.length_le
  rw [List.length_drop] at hlen ⊢
  have htwo : Constants.CrLf.length = 2 := by decide
  omega

variable {x l y : Text}

theorem lines_of_unbroken (h : Unbroken x) : lines x = [] := by
  rw [lines]
  split
  · rfl
  · rename_i pos hfind
    rw [find_eq_none_iff.2 h] at hfind
    cases hfind

theorem lines_line (hl : Unbroken l) (y : Text) :
    lines (l ++ (Constants.CrLf ++ y)) = l :: lines y := by
  have hpos := find_line hl y
  rw [lines]
  split
  · rename_i hfind
    rw [hpos] at hfind
    cases hfind
  · rename_i pos hfind
    rw [hpos] at hfind
    cases hfind
    have hdrop : (l ++ (Constants.CrLf ++ y)).drop (l.length + 2) = y := by
      rw [← List.drop_drop, List.drop_left]
      exact List.drop_left' rfl
    rw [List.take_left, hdrop]

/-! ## What is left when the head is read -/

/-- Blanks and CRLF belong to the head. -/
theorem body_of_blanks (hl : Blanks l) (y : Text) : body (l ++ (Constants.CrLf ++ y)) = y := by
  classical
  have hhead := literal_crLf.head_append y
  have hlead : lead (l ++ (Constants.CrLf ++ y)) = (l ++ Constants.CrLf).length := by
    rw [lead, skip_append hl hhead, gap_append hl hhead, Sequence.parse_eq,
      if_pos (List.prefix_append _ y), List.length_append]
  rw [body, hlead, ← List.append_assoc, List.drop_left]

/-- In front of anything else the head is the blanks. -/
theorem body_of_line (hl : Unbroken l) (hb : ¬ Blanks l) (y : Text) :
    body (l ++ (Constants.CrLf ++ y)) = skip l ++ (Constants.CrLf ++ y) := by
  classical
  have hskip := skip_ends l (endsLine_crLf y)
  have hno : ¬ Constants.CrLf <+: skip l ++ (Constants.CrLf ++ y) := by
    intro hprefix
    exact hb ((skip_eq_nil_iff l).1 ((crLf_prefix_line_iff hl.skip y).1 hprefix))
  have hgap : skip (l ++ (Constants.CrLf ++ y)) =
      (l ++ (Constants.CrLf ++ y)).drop (gap (l ++ (Constants.CrLf ++ y))) := by
    have hsubstr := substr_gap [] (l ++ (Constants.CrLf ++ y))
    rw [List.nil_append, List.length_nil, Nat.zero_add] at hsubstr
    exact (substr_eq_some hsubstr).2
  rw [body, lead, hskip, Sequence.parse_eq, if_neg hno, Nat.add_zero, ← hgap, hskip]

/-- A response that accepts takes the text up to the end of the line behind the head. -/
theorem LineResponse.accept_takes (r : LineResponse) {fs : List ResponseField} {n : Nat}
    (h : r.type.accept r.type.init x 0 = some (true, fs, n)) :
    ∃ l y, body x = l ++ (Constants.CrLf ++ y) ∧ Unbroken l ∧ x.drop n = y := by
  obtain ⟨ok, fs', n', haccept, hok⟩ := r.accept_outcome x
  rw [h] at haccept
  cases haccept
  obtain ⟨w, y, hx, hw⟩ := (hok rfl).1.split
  have hn : n = w.length + 2 := by
    obtain ⟨ok, fs', n', haccept, hok⟩ :=
      acceptWithTerm_outcome hw r.tagInLine r.inLine (endsLine_crLf y)
    have h : Response.acceptImpl r.tag r.fields x 0 = some (true, fs, n) := h
    rw [acceptImpl_eq] at h
    rw [← hx, h] at haccept
    cases haccept
    exact (hok rfl).2
  refine ⟨w.drop (lead x), y, ?_, hw.unbroken, ?_⟩
  · show x.drop (lead x) = _
    have hdrop : (w ++ (Constants.CrLf ++ y)).drop (lead x) =
        w.drop (lead x) ++ (Constants.CrLf ++ y) := List.drop_append_of_le_length hw.le
    rwa [← hx] at hdrop
  · rw [hx, hn, ← List.drop_drop, List.drop_left]
    exact List.drop_left' rfl

/-- So does the first match of a pack. -/
theorem firstMatch_takes : ∀ {us : List LineResponse} {obj : Alternative (us.map LineResponse.type)}
    {n : Nat}, FirstMatch x (us.map LineResponse.type) obj n →
      ∃ l y, body x = l ++ (Constants.CrLf ++ y) ∧ Unbroken l ∧ x.drop n = y
  | [], obj, _, _ => nomatch obj
  | u :: us, _, _, h => by
    cases h with
    | here haccept => exact u.accept_takes haccept
    | later _ hrest => exact firstMatch_takes hrest

/-! ## Empty lines -/

/-- No field that stays on one line reads an empty text. -/
theorem visitField_empty {f : ResponseField} (hf : InLine f) (pre : Text) :
    ∃ f' n, visitField pre f pre.length = some (false, f', n) := by
  have hskip : skip [] = [] := rfl
  cases f with
  | int i =>
    have hvisit := visitInt_eq pre [] i
    rw [List.append_nil, hskip] at hvisit
    exact ⟨.int i, pre.length + gap [], congrArg (Option.map _) hvisit⟩
  | quoted storage => exact absurd hf id
  | line buf =>
    have hvisit := visitLine_eq pre [] buf
    rw [List.append_nil] at hvisit
    have htake : lineTake [] buf = 0 := Nat.le_zero.1 (lineTake_le [] buf)
    rw [htake] at hvisit
    exact ⟨_, _, congrArg (Option.map _) hvisit⟩
  | enum e =>
    have hvisit := visitEnum_eq pre [] e
    rw [List.append_nil, hskip] at hvisit
    have hparse : (e.parse []).1 = 0 := by
      unfold Enum.parse
      cases htraits : e.traits with
      | numeric c => rfl
      | custom c =>
        simp only [InLine, htraits] at hf
        have hno : ∀ k ∈ c.keys, ¬ k <+: [] :=
          fun k hk hprefix => (hf.2.2 k hk).1 (List.prefix_nil.1 hprefix)
        simp only [EnumCustomStringConverter.parse_of_no_start hno]
    rw [hparse] at hvisit
    exact ⟨_, _, congrArg (Option.map _) hvisit⟩

section Empty

variable {tag : Text} {fs : List ResponseField} (pre y : Text)

/-- The end of `pre` is inside a line that is empty up to there. -/
theorem insideLine_length (pre : Text) : InsideLine pre pre.length := by
  refine ⟨Nat.le_refl _, ?_⟩
  rw [List.drop_length]
  exact fun hin => absurd hin.length_le (by decide)

/-- Fields are refused at a CRLF. -/
theorem visitWithCommas_empty (hf : ∀ f ∈ fs, InLine f) (hne : fs ≠ []) : ∃ fs' n,
    visitWithCommas (visitor (pre ++ (Constants.CrLf ++ y))) fs pre.length = some (false, fs', n) := by
  cases fs with
  | nil => exact absurd rfl hne
  | cons f fs =>
    have hline : InLine f := hf f List.mem_cons_self
    obtain ⟨f', n, hvisit⟩ := visitField_empty hline pre
    rw [← visitField_ends (insideLine_length pre) hline (endsLine_crLf y)] at hvisit
    cases fs with
    | nil => exact ⟨[f'], n, by simp only [visitWithCommas, visitor_visit, hvisit, Option.map_some]⟩
    | cons g fs => exact ⟨f' :: g :: fs, n, by simp only [visitWithCommas, visitor_visit, hvisit]⟩

/-- A tag is refused at a CRLF. -/
theorem visitTag_empty (htag : carriageReturn ∉ tag) (hne : tag ≠ []) :
    visitSequence (pre ++ (Constants.CrLf ++ y)) tag pre.length = some (false, pre.length) := by
  have hno : ¬ tag <+: Constants.CrLf ++ y := by
    rintro ⟨t, ht⟩
    cases tag with
    | nil => exact hne rfl
    | cons c tag =>
      rw [crLf_eq] at ht
      have hc : c = carriageReturn := (List.cons.inj ht).1
      exact htag (by rw [hc]; exact List.mem_cons_self)
  have hvisit := visitSequence_absent Blanks.nil (literal_crLf.head_append y) hno pre
  rwa [List.nil_append, List.append_nil] at hvisit

/-- At a CRLF a packet is accepted only with neither a tag nor a field. -/
theorem acceptWithTerm_empty_iff (htag : carriageReturn ∉ tag) (hf : ∀ f ∈ fs, InLine f) :
    (∃ fs' n, acceptWithTerm (visitor (pre ++ (Constants.CrLf ++ y))) tag Constants.CrLf fs pre.length =
        some (true, fs', n)) ↔ tag = [] ∧ fs = [] := by
  by_cases hnone : tag = []
  · subst hnone
    by_cases hfields : fs = []
    · subst hfields
      have hterm := visitSequence_literal literal_crLf Blanks.nil pre y
      rw [List.nil_append] at hterm
      refine iff_of_true ⟨[], (pre ++ Constants.CrLf).length, ?_⟩ ⟨rfl, rfl⟩
      simp only [acceptWithTerm, List.length_nil, Nat.lt_irrefl, if_false, visitWithCommas,
        visitor_visitSequence, hterm, Option.map_some]
    · obtain ⟨fs', n, hrejects⟩ := visitWithCommas_empty pre y hf hfields
      refine iff_of_false ?_ fun h => hfields h.2
      simp [acceptWithTerm, hrejects]
  · have hpos : 0 < tag.length := List.length_pos_iff.2 hnone
    have hrejects := visitTag_empty pre y htag hnone
    refine iff_of_false ?_ fun h => hnone h.1
    simp [acceptWithTerm, hpos, visitor_visitSequence, hrejects]

end Empty

/-- Only a response with neither a tag nor a field takes an empty line. -/
theorem LineResponse.accepts_empty_iff (r : LineResponse) (h : Constants.CrLf <+: body x) :
    Accepts r.type x ↔ r.tag = [] ∧ r.fields = [] := by
  obtain ⟨y, hy⟩ := h
  have hx : x.take (lead x) ++ (Constants.CrLf ++ y) = x := by
    rw [hy, body, List.take_append_drop]
  have hlead : (x.take (lead x)).length = lead x := List.length_take_of_le (lead_le x)
  have hempty := acceptWithTerm_empty_iff (x.take (lead x)) y r.tagInLine r.inLine
  rw [hx, hlead, ← acceptImpl_eq] at hempty
  exact hempty

/-! ## What one dispatch takes -/

/-- The lines that one dispatch takes from the front: a line that is not blank, or a line of blanks
and the line behind it.  `empty` says whether a known response takes an empty line. -/
inductive Takes (empty : Prop) : List Text → List Text → Prop where
  | line {l : Text} {ls : List Text} : ¬ Blanks l → Takes empty (l :: ls) ls
  | spaced {l l' : Text} {ls : List Text} : Blanks l → l' ≠ [] ∨ empty →
      Takes empty (l :: l' :: ls) ls

/-- A line behind the head is taken with the head. -/
theorem takes_of_head {empty : Prop} (h : HeadLine x ∨ Constants.CrLf <+: body x ∧ empty)
    (hbody : body x = l ++ (Constants.CrLf ++ y)) (hl : Unbroken l) :
    Takes empty (lines x) (lines y) := by
  rcases unbroken_or_line x with hx | ⟨l₀, y₀, rfl, hl₀⟩
  · refine absurd ?_ hx
    have hin : Constants.CrLf <:+: body x := by
      rw [hbody]
      exact crLf_infix_line l y
    exact hin.trans (List.drop_suffix _ x).isInfix
  rw [lines_line hl₀]
  by_cases hb : Blanks l₀
  · rw [body_of_blanks hb] at hbody
    rw [hbody, lines_line hl]
    apply Takes.spaced hb
    rcases h with ⟨-, hne⟩ | ⟨-, hempty⟩
    · rw [body_of_blanks hb, hbody, crLf_prefix_line_iff hl] at hne
      exact Or.inl hne
    · exact Or.inr hempty
  · rw [body_of_line hl₀ hb] at hbody
    obtain ⟨-, rfl⟩ := line_unique hl₀.skip hl hbody
    exact .line hb

/-- Where lines can be taken, a line is ended behind the head. -/
theorem head_of_takes {empty : Prop} {ls : List Text} (h : Takes empty (lines x) ls) :
    HeadLine x ∨ Constants.CrLf <+: body x ∧ empty := by
  rcases unbroken_or_line x with hx | ⟨l, y, rfl, hl⟩
  · rw [lines_of_unbroken hx] at h
    cases h
  rw [lines_line hl] at h
  generalize hls : lines y = rest at h
  cases h with
  | line hb =>
    refine Or.inl ?_
    rw [HeadLine, HasLine, body_of_line hl hb, crLf_prefix_line_iff hl.skip, skip_eq_nil_iff]
    exact ⟨crLf_infix_line (skip l) y, hb⟩
  | @spaced _ l' ls hb hnext =>
    rcases unbroken_or_line y with hy | ⟨l'', y', rfl, hl''⟩
    · rw [lines_of_unbroken hy] at hls
      cases hls
    rw [lines_line hl''] at hls
    obtain ⟨rfl, -⟩ := List.cons.inj hls
    rw [HeadLine, HasLine, body_of_blanks hb, crLf_prefix_line_iff hl'']
    by_cases hnil : l'' = []
    · exact Or.inr ⟨hnil, hnext.resolve_left (not_not_intro hnil)⟩
    · exact Or.inl ⟨crLf_infix_line l'' y', hnil⟩

section Dispatch

variable {us : List LineResponse}

/-- A known response has neither a tag nor a field. -/
def TakesEmpty (us : List LineResponse) : Prop := ∃ u ∈ us, u.tag = [] ∧ u.fields = []

/-- Some response of the pack accepts a line that is not empty, and an empty one if a known response
does. -/
theorem urc_accepts_iff (us : List LineResponse) (hlen : x.length ≤ 512) :
    (∃ u ∈ us ++ [AnyUrc.response], Accepts u.type x) ↔
      HeadLine x ∨ Constants.CrLf <+: body x ∧ TakesEmpty us := by
  constructor
  · rintro ⟨u, hu, haccept⟩
    by_cases hempty : Constants.CrLf <+: body x
    · rcases List.mem_append.1 hu with hmem | hmem
      · exact Or.inr ⟨hempty, u, hmem, (u.accepts_empty_iff hempty).1 haccept⟩
      · obtain rfl := List.mem_singleton.1 hmem
        exact Or.inl ((AnyUrc.accepts_iff hlen).1 haccept)
    · obtain ⟨fs, n, haccept⟩ := haccept
      obtain ⟨ok, fs', n', haccept', hok⟩ := u.accept_outcome x
      rw [haccept] at haccept'
      cases haccept'
      exact Or.inl ⟨(hok rfl).1, hempty⟩
  · rintro (hhead | ⟨hempty, u, hu, hnone⟩)
    · exact ⟨AnyUrc.response, by simp, (AnyUrc.accepts_iff hlen).2 hhead⟩
    · exact ⟨u, List.mem_append_left _ hu, (u.accepts_empty_iff hempty).2 hnone⟩

/-- A dispatch takes nothing where no response accepts; otherwise it takes the line behind the
head. -/
theorem UrcDispatcher.dispatch_cases (d : UrcDispatcher (us.map LineResponse.type)) (x : Text) :
    d.dispatch x = some (0, d) ∧ (¬ ∃ u ∈ us ++ [AnyUrc.response], Accepts u.type x) ∨
      ∃ n d' l y, d.dispatch x = some (n, d') ∧ 0 < n ∧ n ≤ x.length ∧
        (∃ u ∈ us ++ [AnyUrc.response], Accepts u.type x) ∧
        body x = l ++ (Constants.CrLf ++ y) ∧ Unbroken l ∧ x.drop n = y := by
  have houtcome : ∃ value n, tryAll (Urc (us.map LineResponse.type)) x 0 = some (value, n) ∧
      (value.isSome = true ↔ ∃ u ∈ us ++ [AnyUrc.response], Accepts u.type x) ∧
      (value.isSome = true → 0 < n ∧ n ≤ x.length ∧
        ∃ l y, body x = l ++ (Constants.CrLf ++ y) ∧ Unbroken l ∧ x.drop n = y) := by
    rw [urc_map_type]
    have hdecides : ∀ R ∈ (us ++ [AnyUrc.response]).map LineResponse.type, Decides R x := by
      intro R hR
      obtain ⟨u, -, rfl⟩ := List.mem_map.1 hR
      obtain ⟨ok, fs, n, haccept, -⟩ := u.accept_outcome x
      exact ⟨ok, fs, n, haccept⟩
    obtain ⟨value, n, htry, hvalue⟩ :=
      ResponseType.OneLine.tryAll_outcome (oneLine_map_type (us ++ [AnyUrc.response])) x 0
    obtain ⟨value', n', htry', hiff⟩ := tryAll_isSome_iff hdecides 0
    rw [htry] at htry'
    cases htry'
    refine ⟨value, n, htry, ?_, fun hsome => ?_⟩
    · rw [hiff]
      simp only [List.mem_map, exists_exists_and_eq_and]
    · obtain ⟨-, hpos, hle⟩ := hvalue hsome
      obtain ⟨obj, rfl⟩ := Option.isSome_iff_exists.1 hsome
      exact ⟨hpos, hle, firstMatch_takes ((tryAll_eq_match_iff 0).1 htry)⟩
  obtain ⟨value, n, htry, hiff, htakes⟩ := houtcome
  unfold dispatch ResponsePack.accept
  rw [htry]
  cases value with
  | none => exact Or.inl ⟨rfl, fun haccepts => by cases hiff.2 haccepts⟩
  | some obj =>
    obtain ⟨hpos, hle, l, y, hbody, hl, hdrop⟩ := htakes rfl
    exact Or.inr ⟨n, _, l, y, rfl, hpos, hle, hiff.1 rfl, hbody, hl, hdrop⟩

variable {π ρ : Type} (acceptResult : π → Text → Option (Bool × π × Nat))
  (acceptResponse : ρ → Text → Option (Bool × ρ × Nat))

/-- **One dispatch**: it takes nothing, and then there is nothing it could take, or it takes the
first one or two lines. -/
theorem urcReader_takes (d : UrcDispatcher (us.map LineResponse.type)) (hlen : x.length ≤ 512) :
    (urcReader (urcVirtuals acceptResult acceptResponse us)).step d x = .rejects ∧
        (∀ ls, ¬ Takes (TakesEmpty us) (lines x) ls) ∨
      ∃ n d', (urcReader (urcVirtuals acceptResult acceptResponse us)).step d x = .accepts d' n ∧
        Takes (TakesEmpty us) (lines x) (lines (x.drop n)) := by
  have hquiet := urcVirtuals_quiet acceptResult acceptResponse us
  have haccepts := urc_accepts_iff us hlen
  rcases d.dispatch_cases x with ⟨hd, hno⟩ | ⟨n, d', l, y, hd, hpos, hle, hsome, hbody, hl, hdrop⟩
  · refine Or.inl ⟨(urcReader_rejects_iff hquiet).2 hd, fun ls htakes => ?_⟩
    exact hno (haccepts.2 (head_of_takes htakes))
  · refine Or.inr ⟨n, d', urcReader_accepts_iff.2 ⟨hd, hpos, hle⟩, ?_⟩
    rw [hdrop]
    exact takes_of_head (haccepts.1 hsome) hbody hl

/-! ## What a call leaves of lines -/

/-- Lines that can be taken one after the other, up to empty lines at the end: each is not blank, or
is blank and has a line behind it that is not empty (or that a known response takes empty). -/
inductive ReadOff (empty : Prop) : List Text → Prop where
  | line {l : Text} {ls : List Text} : ¬ Blanks l → ReadOff empty ls →
      ReadOff empty (l :: ls)
  | spaced {l l' : Text} {ls : List Text} : Blanks l → l' ≠ [] ∨ empty → ReadOff empty ls →
      ReadOff empty (l :: l' :: ls)
  | rest {ls : List Text} : (∀ l ∈ ls, l = []) → ReadOff empty ls

theorem Takes.readOff_iff {empty : Prop} {ls ls' : List Text} (h : Takes empty ls ls') :
    ReadOff empty ls ↔ ReadOff empty ls' := by
  cases h with
  | line hb =>
    refine ⟨fun hls => ?_, .line hb⟩
    cases hls with
    | line _ hls => exact hls
    | spaced hb' => exact absurd hb' hb
    | rest hnil =>
      rw [hnil _ List.mem_cons_self] at hb
      exact absurd Blanks.nil hb
  | spaced hb hnext =>
    refine ⟨fun hls => ?_, .spaced hb hnext⟩
    cases hls with
    | line hb' => exact absurd hb hb'
    | spaced _ _ hls => exact hls
    | rest hnil => exact .rest fun l hl => hnil l (by simp [hl])

/-- Where nothing can be taken, only empty lines will do. -/
theorem readOff_iff_of_not_takes {empty : Prop} {ls : List Text} (h : ∀ ls', ¬ Takes empty ls ls') :
    ReadOff empty ls ↔ ∀ l ∈ ls, l = [] := by
  refine ⟨fun hls => ?_, .rest⟩
  cases hls with
  | line hb => exact absurd (.line hb) (h _)
  | spaced hb hnext => exact absurd (.spaced hb hnext) (h _)
  | rest hnil => exact hnil

/-- A whole reading leaves empty lines only, exactly where the lines can be read off. -/
theorem reads_readOff_iff {d d' : UrcDispatcher (us.map LineResponse.type)}
    (h : (urcReader (urcVirtuals acceptResult acceptResponse us)).Reads d x d' y)
    (hlen : x.length ≤ 512) : ReadOff (TakesEmpty us) (lines x) ↔ ∀ l ∈ lines y, l = [] := by
  induction h with
  | @done d x hreject =>
    rcases urcReader_takes acceptResult acceptResponse d hlen with ⟨-, hno⟩ | ⟨n, d', hstep, -⟩
    · exact readOff_iff_of_not_takes hno
    · rw [hreject] at hstep
      cases hstep
  | @next d d' q x y n hstep _ ih =>
    have hless : (x.drop n).length ≤ x.length := by
      rw [List.length_drop]
      exact Nat.sub_le _ _
    rcases urcReader_takes acceptResult acceptResponse d hlen with ⟨hreject, -⟩ | ⟨m, d'', hstep', htakes⟩
    · rw [hstep] at hreject
      cases hreject
    · rw [hstep] at hstep'
      cases hstep'
      exact htakes.readOff_iff.trans (ih (hless.trans hlen))

end Dispatch

/-! ## Known URCs of any type -/

/-- A line that is not empty is ended behind the head, with the text behind it. -/
theorem headLine_iff : HeadLine x ↔ ∃ l y, body x = l ++ (Constants.CrLf ++ y) ∧ Unbroken l ∧ l ≠ [] := by
  constructor
  · rintro ⟨hhas, hno⟩
    obtain ⟨l, y, hbody, hl⟩ := exists_line hhas
    rw [hbody, crLf_prefix_line_iff hl] at hno
    exact ⟨l, y, hbody, hl, hno⟩
  · rintro ⟨l, y, hbody, hl, hne⟩
    rw [HeadLine, HasLine, hbody, crLf_prefix_line_iff hl]
    exact ⟨crLf_infix_line l y, hne⟩

/-- Such a line, with the blanks in front of it or alone, is a complete line of the text. -/
theorem HeadLine.exists_line (h : HeadLine x) : ∃ l ∈ lines x, l ≠ [] := by
  obtain ⟨l, y, hbody, hl, -⟩ := headLine_iff.1 h
  have htakes : Takes False (lines x) (lines y) := takes_of_head (Or.inl h) hbody hl
  generalize lines x = ls at htakes
  generalize lines y = rest at htakes
  cases htakes with
  | @line l _ hb => exact ⟨l, List.mem_cons_self, fun hnil => hb (hnil ▸ Blanks.nil)⟩
  | @spaced _ l _ _ hnext =>
    exact ⟨l, List.mem_cons_of_mem _ List.mem_cons_self, hnext.resolve_right id⟩

section Known

variable {Rs : List ResponseType} {n : Nat}

/-- Where all known URCs refuse, a dispatch takes the line behind the head, unless that is empty. -/
theorem UrcDispatcher.dispatch_unknown_takes (d : UrcDispatcher Rs) (hlen : x.length ≤ 512)
    (h : ∀ R ∈ Rs, Rejects R x) :
    ¬ HeadLine x ∧ d.dispatch x = some (0, d) ∨
      ∃ n d' l y, d.dispatch x = some (n, d') ∧ 0 < n ∧ n ≤ x.length ∧
        body x = l ++ (Constants.CrLf ++ y) ∧ Unbroken l ∧ l ≠ [] ∧ x.drop n = y := by
  rcases d.dispatch_unknown hlen h with hnone | ⟨⟨-, hno⟩, n, fs, d', haccept, hd, hpos, hle⟩
  · exact Or.inl hnone
  · obtain ⟨l, y, hbody, hl, hdrop⟩ := AnyUrc.response.accept_takes haccept
    rw [hbody, crLf_prefix_line_iff hl] at hno
    exact Or.inr ⟨n, d', l, y, hd, hpos, hle, hbody, hl, hno, hdrop⟩

variable (Rs) in
/-- Texts that can be read off from the front: each piece is what the first known URC to accept
consumes, or, where all of them refuse, a line that is not empty behind the head; at the end the
known URCs take nothing, and no line but empty ones is left. -/
inductive Dispatchable : Text → Prop where
  | known {x : Text} {obj : Alternative Rs} {n : Nat} : FirstMatch x Rs obj n → 0 < n →
      n ≤ x.length → Dispatchable (x.drop n) → Dispatchable x
  | unknown {x l y : Text} : (∀ R ∈ Rs, Rejects R x) → body x = l ++ (Constants.CrLf ++ y) →
      Unbroken l → l ≠ [] → Dispatchable y → Dispatchable x
  | rest {x : Text} : ((∀ R ∈ Rs, Rejects R x) ∨ ∃ obj, FirstMatch x Rs obj 0) →
      (∀ l ∈ lines x, l = []) → Dispatchable x

variable {π ρ : Type} (acceptResult : π → Text → Option (Bool × π × Nat))
  (acceptResponse : ρ → Text → Option (Bool × ρ × Nat))

variable {acceptResult acceptResponse} in
/-- What the dispatches of a call take are such pieces. -/
theorem Dispatches.dispatchable {d d' : UrcDispatcher Rs}
    (h : Dispatches (packVirtuals acceptResult acceptResponse Rs) d x d' y)
    (hlen : x.length ≤ 512) (hlines : ∀ l ∈ lines y, l = []) : Dispatchable Rs x := by
  induction h with
  | done hd =>
    refine .rest ?_ hlines
    exact (UrcDispatcher.dispatch_decides hd).symm
  | @next d d1 _ x y n hd hpos hle hrest ih =>
    have hd : d.dispatch x = some (n, d1) := hd
    have hless : (x.drop n).length ≤ 512 := by
      rw [List.length_drop]
      omega
    have hbehind := ih hless hlines
    rcases UrcDispatcher.dispatch_decides hd with ⟨obj, hfirst⟩ | hrejects
    · exact .known hfirst hpos hle hbehind
    · rcases d.dispatch_unknown_takes hlen hrejects with ⟨-, hd'⟩ | ⟨m, d2, l, _, hd', -, -, hbody, hl, hne, rfl⟩
      · rw [hd] at hd'
        cases hd'
        exact absurd hpos (Nat.lt_irrefl 0)
      · rw [hd] at hd'
        cases hd'
        exact .unknown hrejects hbody hl hne hbehind

/-- Such pieces are dispatched one after the other, whatever the dispatcher has found before. -/
theorem Dispatchable.dispatches (h : Dispatchable Rs x) (hlen : x.length ≤ 512)
    (d : UrcDispatcher Rs) :
    ∃ d' y, Dispatches (packVirtuals acceptResult acceptResponse Rs) d x d' y ∧
      ∀ l ∈ lines y, l = [] := by
  induction h generalizing d with
  | @known x obj n hfirst hpos hle _ ih =>
    obtain ⟨d1, hd⟩ := d.dispatch_known hfirst
    have hless : (x.drop n).length ≤ 512 := by
      rw [List.length_drop]
      omega
    obtain ⟨d', y, hrest, hlines⟩ := ih hless d1
    exact ⟨d', y, .next hd hpos hle hrest, hlines⟩
  | @unknown x l y hrejects hbody hl hne _ ih =>
    rcases d.dispatch_unknown_takes hlen hrejects with ⟨hno, -⟩ |
      ⟨n, d1, l', y', hd, hpos, hle, hbody', hl', -, hdrop⟩
    · exact absurd (headLine_iff.2 ⟨l, y, hbody, hl, hne⟩) hno
    · rw [hbody] at hbody'
      obtain ⟨-, rfl⟩ := line_unique hl hl' hbody'
      have hless : y.length ≤ 512 := by
        rw [← hdrop, List.length_drop]
        omega
      obtain ⟨d', z, hrest, hlines⟩ := ih hless d1
      exact ⟨d', z, .next hd hpos hle (hdrop ▸ hrest), hlines⟩
  | @rest x hnone hlines =>
    rcases hnone with hrejects | ⟨obj, hfirst⟩
    · rcases d.dispatch_unknown_takes hlen hrejects with ⟨-, hd⟩ | ⟨_, _, l, y, -, -, -, hbody, hl, hne, -⟩
      · exact ⟨d, x, .done hd, hlines⟩
      · obtain ⟨l', hmem, hne'⟩ := (headLine_iff.2 ⟨l, y, hbody, hl, hne⟩).exists_line
        exact absurd (hlines l' hmem) hne'
    · obtain ⟨d1, hd⟩ := d.dispatch_known hfirst
      exact ⟨d1, x, .done hd, hlines⟩

/-- A call of `dispatchUrcs` returns, its slices and what it leaves make up the buffered text, and
no line that is not empty is complete in what it leaves. -/
def NothingStuck (rx : RxBuffer) (bytes : Text) (d : UrcDispatcher Rs) : Prop :=
  ∃ rx' d' taken,
    dispatchUrcs (packVirtuals acceptResult acceptResponse Rs) rx bytes d = some (rx', d', taken) ∧
      consumedText taken ++ rx'.unread = rx.unread ++ bytes ∧ ∀ l ∈ lines rx'.unread, l = []

theorem nothingStuck_iff_dispatchable {rx : RxBuffer} {bytes : Text} (d : UrcDispatcher Rs)
    (hfit : rx.leftover + bytes.length ≤ storageSize) :
    NothingStuck acceptResult acceptResponse rx bytes d ↔ Dispatchable Rs (rx.unread ++ bytes) := by
  have hle : rx.leftover ≤ storageSize := Nat.le_trans (Nat.le_add_right _ _) hfit
  have hlen : (rx.unread ++ bytes).length ≤ 512 := by
    rw [List.length_append, rx.unread_length hle]
    exact hfit
  constructor
  · rintro ⟨rx', d', taken, hcall, -, hlines⟩
    exact (dispatches_of_dispatchUrcs hle hcall).dispatchable hlen hlines
  · intro h
    obtain ⟨d', y, hdispatches, hlines⟩ := h.dispatches acceptResult acceptResponse hlen d
    obtain ⟨rx', taken, hcall, rfl, -⟩ := dispatchUrcs_of_dispatches hfit hdispatches
    exact ⟨rx', d', taken, hcall, (dispatchUrcs_conserves hle hcall).2, hlines⟩

end Known

/-- The machine waits for nothing: a parser that rejects every text. -/
def noParser (u : Unit) (_ : Text) : Option (Bool × Unit × Nat) := some (false, u, 0)

/-- Known URCs that are read inside their line: the pieces are the lines. -/
theorem dispatchable_iff_readOff (us : List LineResponse) (hlen : x.length ≤ 512) :
    Dispatchable (us.map LineResponse.type) x ↔ ReadOff (TakesEmpty us) (lines x) := by
  have hquiet := urcVirtuals_quiet noParser noParser us
  obtain ⟨d', y, hread⟩ := Reader.exists_reads (urcVirtuals_next noParser noParser us) ⟨none, []⟩ x
  have hdispatches : Dispatches (packVirtuals noParser noParser (us.map LineResponse.type))
      ⟨none, []⟩ x d' y := Dispatches.of_reads hquiet hread
  rw [reads_readOff_iff noParser noParser hread hlen]
  refine ⟨fun h => ?_, hdispatches.dispatchable hlen⟩
  obtain ⟨d'', y', hdispatches', hlines⟩ := h.dispatches noParser noParser hlen ⟨none, []⟩
  obtain ⟨-, rfl⟩ := hdispatches.unique hdispatches'
  exact hlines

/-- **No complete line is stuck, exactly**: if and only if the buffered text can be read off from
the front in pieces, each what a known URC takes or a line that is not empty, until only empty lines
are left.  Known URCs that are read inside their line leave this to the lines: each line of blanks
has to have a line behind it that is not empty. -/
theorem nothingStuck_iff {π ρ : Type} (acceptResult : π → Text → Option (Bool × π × Nat))
    (acceptResponse : ρ → Text → Option (Bool × ρ × Nat)) (Rs : List ResponseType) (rx : RxBuffer)
    (bytes : Text) (d : UrcDispatcher Rs) (hfit : rx.leftover + bytes.length ≤ storageSize) :
    (NothingStuck acceptResult acceptResponse rx bytes d ↔ Dispatchable Rs (rx.unread ++ bytes)) ∧
      ∀ us : List LineResponse, Rs = us.map LineResponse.type →
        (Dispatchable Rs (rx.unread ++ bytes) ↔
          ReadOff (TakesEmpty us) (lines (rx.unread ++ bytes))) := by
  refine ⟨nothingStuck_iff_dispatchable acceptResult acceptResponse d hfit, ?_⟩
  rintro us rfl
  apply dispatchable_iff_readOff us
  rw [List.length_append, rx.unread_length (Nat.le_trans (Nat.le_add_right _ _) hfit)]
  exact hfit

/-- An optional CRLF, a known URC, and a line that only `AnyUrc` takes. -/
theorem nothingStuck_iff_foo :
    (NothingStuck noParser noParser RxBuffer.init (text "\r\n+FOO: 1\r\nRING\r\n+F")
        (⟨none, []⟩ : UrcDispatcher ([fooUrc].map LineResponse.type)) ↔
      Dispatchable ([fooUrc].map LineResponse.type)
        (RxBuffer.init.unread ++ text "\r\n+FOO: 1\r\nRING\r\n+F")) ∧
      (Dispatchable ([fooUrc].map LineResponse.type)
          (RxBuffer.init.unread ++ text "\r\n+FOO: 1\r\nRING\r\n+F") ↔
        ReadOff (TakesEmpty [fooUrc])
          (lines (RxBuffer.init.unread ++ text "\r\n+FOO: 1\r\nRING\r\n+F"))) :=
  ⟨(nothingStuck_iff noParser noParser _ RxBuffer.init _ ⟨none, []⟩ (by decide)).1,
    (nothingStuck_iff noParser noParser ([fooUrc].map LineResponse.type) RxBuffer.init _ ⟨none, []⟩
      (by decide)).2 [fooUrc] rfl⟩

/-- Behind two CRLFs a known URC is stuck. -/
theorem urc_is_stuck : ¬ NothingStuck noParser noParser RxBuffer.init (text "\r\n\r\n+FOO: 1\r\n")
    (⟨none, []⟩ : UrcDispatcher ([fooUrc].map LineResponse.type)) := by
  intro hstuck
  have hfit : RxBuffer.init.leftover + (text "\r\n\r\n+FOO: 1\r\n").length ≤ storageSize := by decide
  have hunread : RxBuffer.init.unread = [] := List.take_zero
  have hlen : (text "\r\n\r\n+FOO: 1\r\n").length ≤ 512 := by decide
  have hsplit : lines (text "\r\n\r\n+FOO: 1\r\n") = [[], [], text "+FOO: 1"] := by decide +kernel
  have hempty : ¬ TakesEmpty [fooUrc] := by
    rintro ⟨u, hu, htag, -⟩
    obtain rfl := List.mem_singleton.1 hu
    exact absurd htag (by decide)
  rw [nothingStuck_iff_dispatchable noParser noParser _ hfit, hunread, List.nil_append,
    dispatchable_iff_readOff [fooUrc] hlen, hsplit] at hstuck
  cases hstuck with
  | line hb => exact hb Blanks.nil
  | spaced _ hnext => exact hnext.elim (absurd rfl) hempty
  | rest hnil => exact absurd (hnil (text "+FOO: 1") (by simp)) (by decide)

end ATLink
