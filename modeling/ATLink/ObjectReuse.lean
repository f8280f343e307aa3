import ATLink.TextParsers
import ATLink.Visits

/-!
# Response objects that are used again

What an object shows after `accept` may not depend on what its fields held before.

* `cString` — a buffer read up to its first NUL, as `QuotedField::view` does.
* `ResponseField.shown` — what the user sees of a field.
* `ResponseField.filled` — the field with its storage filled with one character; `SameClass` —
  objects that are the same when filled alike, so that only earlier contents tell them apart.
* `NoLeak` — all objects of a class show the same after they accept an input.
* `Overwrites` — along the visits, each quoted string finds a literal that is not empty and fits
  its storage, and each line text finds a line that fills its buffer or contains NUL.

Principal result: `noLeak_iff` — for an input that is accepted, earlier contents do not show
exactly when the visits overwrite the fields.
-/

namespace ATLink

open StringView CharConv Deserializer

/-! ## What is shown -/

/-- A buffer read as NUL-terminated text. -/
def cString (buf : Text) : Text := buf.takeWhile fun c => decide (c ≠ 0)

/-- The value of a field: `QuotedField::view()`, and a line text read up to its NUL. -/
def ResponseField.shown : ResponseField → ResponseField
  | .int i => .int i
  | .quoted storage => .quoted (cString storage)
  | .line buf => .line (cString buf)
  | .enum e => .enum e

/-- The field with storage full of `c`; an int or enum is 0. -/
def ResponseField.filled (c : Byte) : ResponseField → ResponseField
  | .int _ => .int 0
  | .quoted storage => .quoted (List.replicate storage.length c)
  | .line buf => .line (List.replicate buf.length c)
  | .enum e => .enum ⟨e.traits, 0⟩

/-- Fields of one type, with storage of one size. -/
def Alike (f g : ResponseField) : Prop := f.filled 0 = g.filled 0

theorem cString_append_of_mem {a : Text} (h : (0 : Byte) ∈ a) (b : Text) :
    cString (a ++ b) = cString a := by
  obtain ⟨s, t, rfl⟩ := List.append_of_mem h
  unfold cString
  induction s with
  | nil => simp
  | cons c s ih =>
    have ih := ih (by simp)
    simp only [List.cons_append, List.takeWhile_cons] at ih ⊢
    split
    · rw [ih]
    · rfl

theorem cString_append_of_not_mem {a : Text} (h : (0 : Byte) ∉ a) (b : Text) :
    cString (a ++ b) = a ++ cString b := by
  apply List.takeWhile_append_of_pos
  intro c hc
  simpa using fun hzero : c = 0 => h (hzero ▸ hc)

theorem cString_replicate {c : Byte} (hc : c ≠ 0) (n : Nat) :
    cString (List.replicate n c) = List.replicate n c := by
  have h := cString_append_of_not_mem (a := List.replicate n c)
    (fun hm => hc (List.eq_of_mem_replicate hm).symm) []
  simpa [cString] using h

theorem filled_alike (c : Byte) (f : ResponseField) : Alike f (f.filled c) := by
  cases f <;> simp [Alike, ResponseField.filled]

/-! ## Quoted strings -/

/-- The text holds a literal between quotes that is not empty and fits so many characters with its
NUL. -/
def LiteralFits (inp : Text) (capacity : Nat) : Prop :=
  ∃ skipped content rest, inp = skipped ++ quote :: content ++ quote :: rest ∧ quote ∉ skipped ∧
    quote ∉ content ∧ content ≠ [] ∧ content.length < capacity

/-- Such a literal is copied and terminated. -/
theorem parseStringLiteral_fits {inp : Text} {capacity : Nat} (h : LiteralFits inp capacity) :
    ∃ content, ∀ out : Text, out.length = capacity →
      ∃ tail, parseStringLiteral inp out = (content.length + 2, content ++ 0 :: tail) := by
  obtain ⟨skipped, content, rest, rfl, hs, hc, hne, hfit⟩ := h
  refine ⟨content, fun out hout => ?_⟩
  rw [← hout] at hfit
  exact ⟨out.drop (content.length + 1), parseStringLiteral_literal hs hc hne hfit⟩

/-- Anything else leaves the storage as it is, and two characters are reported. -/
theorem parseStringLiteral_misses {inp out : Text} (h : ¬ LiteralFits inp out.length) :
    parseStringLiteral inp out = (2, out) := by
  unfold parseStringLiteral
  split
  · rfl
  · rename_i start hstart
    split
    · rfl
    · rename_i stop hstop
      split
      · rename_i hlt
        simp only
        split
        · rename_i hfit
          refine absurd ?_ h
          obtain ⟨r, hr, hs, hslen⟩ := find_singleton hstart
          have hsplit : inp = (inp.take start ++ [quote]) ++ r := by
            rw [List.append_assoc, List.singleton_append, ← hr]
          have hlen : start + 1 = (inp.take start ++ [quote]).length := by
            rw [List.length_append, hslen]
            rfl
          rw [hsplit, hlen, findFrom_append] at hstop
          obtain ⟨k, hk, hstop⟩ := Option.map_eq_some_iff.1 hstop
          obtain ⟨r', hr', hc, hclen⟩ := find_singleton hk
          rw [← hlen] at hstop
          refine ⟨inp.take start, r.take k, r', ?_, hs, hc, ?_, by omega⟩
          · rw [List.append_assoc, List.cons_append, ← hr', ← hr]
          · intro hnil
            rw [hnil, List.length_nil] at hclen
            omega
        · rfl
      · rfl

/-! ## One visit -/

/-- The line at the start of a text. -/
def lineText (rest : Text) : Text :=
  match find Constants.CrLf rest with
  | none => rest
  | some pos => rest.take pos

/-- What stands at the cursor leaves nothing to see of the earlier contents of the field. -/
def FieldOverwritten (rest : Text) : ResponseField → Prop
  | .int _ => True
  | .quoted storage => storage = [] ∨ LiteralFits (skip rest) storage.length
  | .line buf => buf.length ≤ (lineText rest).length ∨ 0 ∈ lineText rest
  | .enum _ => True

theorem lineTake_eq (rest buf : Text) :
    lineTake rest buf = min (lineText rest).length buf.length := by
  unfold lineTake lineText
  cases hfind : find Constants.CrLf rest with
  | none => rfl
  | some pos =>
    simp only
    rw [List.length_take_of_le (find_eq_some_iff.1 hfind).1]

theorem take_lineTake (rest buf : Text) :
    rest.take (lineTake rest buf) = (lineText rest).take buf.length := by
  unfold lineTake lineText
  cases find Constants.CrLf rest with
  | none =>
    simp only
    rw [Nat.min_comm, ← List.take_take, List.take_length]
  | some pos =>
    simp only
    rw [List.take_take, Nat.min_comm]

/-- A line text takes as much of the line as fits its buffer. -/
theorem visitField_line (pre r buf : Text) :
    visitField (pre ++ r) (.line buf) pre.length =
      some (decide (0 < min (lineText r).length buf.length),
        .line ((lineText r).take buf.length ++ buf.drop (min (lineText r).length buf.length)),
        pre.length + min (lineText r).length buf.length) := by
  simp only [visitField, visitLine_eq, Option.map_some]
  rw [take_lineTake, lineTake_eq]

/-- A visit from behind the end of the input throws. -/
theorem visitField_outside {input : Text} {length : Nat} (h : input.length < length)
    (f : ResponseField) : visitField input f length = none := by
  have hsub : substr input length = none := if_neg (by omega)
  have hskip : skipWhitespaces input length = none := by simp [skipWhitespaces, hsub]
  cases f with
  | int i => simp [visitField, visitInt, hskip]
  | quoted storage => simp [visitField, visitQuoted, hskip]
  | line buf => simp [visitField, visitLine, hsub]
  | enum e => simp [visitField, visitEnum, hskip]

/-- What a buffer shows once the start of it is overwritten. -/
theorem cString_overwritten {l a b : Text} (hlen : a.length = b.length)
    (h : a.length ≤ l.length ∨ 0 ∈ l) :
    cString (l.take a.length ++ a.drop (min l.length a.length)) =
      cString (l.take b.length ++ b.drop (min l.length b.length)) := by
  rcases Nat.le_total a.length l.length with hle | hle
  · rw [Nat.min_eq_right hle, Nat.min_eq_right (hlen ▸ hle), List.drop_length, List.drop_length,
      hlen]
  · have hle' : b.length ≤ l.length ∨ 0 ∈ l := hlen ▸ h
    rw [List.take_of_length_le hle, List.take_of_length_le (hlen ▸ hle)]
    rcases h with hfull | hzero
    · have hfull' : b.length ≤ l.length := hlen ▸ hfull
      rw [Nat.min_eq_right hfull, Nat.min_eq_right hfull', List.drop_length, List.drop_length]
    · rw [cString_append_of_mem hzero, cString_append_of_mem hzero]

/-- Two storages of one size, one visit. -/
theorem visitQuoted_alike {storage storage' : Text} (hlen : storage.length = storage'.length)
    (pre r : Text) :
    ∃ ok f' g' n, visitField (pre ++ r) (.quoted storage) pre.length = some (ok, f', n) ∧
      visitField (pre ++ r) (.quoted storage') pre.length = some (ok, g', n) ∧
      (ok = true → FieldOverwritten r (.quoted storage) → f'.shown = g'.shown) := by
  by_cases hfits : LiteralFits (skip r) storage.length
  · obtain ⟨content, hparse⟩ := parseStringLiteral_fits hfits
    obtain ⟨tail, ht⟩ := hparse storage rfl
    obtain ⟨tail', ht'⟩ := hparse storage' hlen.symm
    simp only [visitField, visitQuoted_eq, ht, ht', Option.map_some]
    refine ⟨_, _, _, _, rfl, rfl, fun _ _ => ?_⟩
    have hnul : ∀ tail : Text, cString (content ++ 0 :: tail) = cString (content ++ [0]) := by
      intro tail
      rw [List.append_cons]
      exact cString_append_of_mem (List.mem_append_right content List.mem_cons_self) tail
    show ResponseField.quoted (cString _) = ResponseField.quoted (cString _)
    rw [hnul tail, hnul tail']
  · have hmiss := parseStringLiteral_misses hfits
    have hmiss' := parseStringLiteral_misses (hlen ▸ hfits)
    simp only [visitField, visitQuoted_eq, hmiss, hmiss', Option.map_some]
    refine ⟨_, _, _, _, rfl, rfl, fun _ hover => ?_⟩
    have hnil : storage = [] := hover.resolve_right hfits
    have hnil' : storage' = [] := by
      rw [hnil] at hlen
      exact List.length_eq_zero_iff.1 hlen.symm
    rw [hnil, hnil']

/-- Two line buffers of one size, one visit. -/
theorem visitLine_alike {buf buf' : Text} (hlen : buf.length = buf'.length) (pre r : Text) :
    ∃ ok f' g' n, visitField (pre ++ r) (.line buf) pre.length = some (ok, f', n) ∧
      visitField (pre ++ r) (.line buf') pre.length = some (ok, g', n) ∧
      (ok = true → FieldOverwritten r (.line buf) → f'.shown = g'.shown) := by
  have hvisit := visitField_line pre r buf
  have hvisit' := visitField_line pre r buf'
  rw [← hlen] at hvisit'
  refine ⟨_, _, _, _, hvisit, hvisit', fun _ hover => ?_⟩
  have hsame := cString_overwritten hlen hover
  rw [← hlen] at hsame
  exact congrArg ResponseField.line hsame

/-- **Two objects, one visit**: the verdict and the cursor are the same, and where the field is
overwritten so is what it shows. -/
theorem visitField_alike {f g : ResponseField} (h : Alike f g) (input : Text) (length : Nat) :
    (visitField input f length = none ∧ visitField input g length = none) ∨
      ∃ ok f' g' n, visitField input f length = some (ok, f', n) ∧
        visitField input g length = some (ok, g', n) ∧
        (ok = true → FieldOverwritten (input.drop length) f → f'.shown = g'.shown) := by
  rcases Nat.lt_or_ge input.length length with hout | hin
  · exact Or.inl ⟨visitField_outside hout f, visitField_outside hout g⟩
  right
  obtain ⟨pre, r, rfl, rfl⟩ := exists_split hin
  rw [List.drop_left]
  cases f with
  | int i =>
    cases g with
    | int j =>
      simp only [visitField, visitInt_eq, Option.map_some]
      cases fromChars INT_MIN INT_MAX (skip r) with
      | none => exact ⟨false, _, _, _, rfl, rfl, fun hok => by cases hok⟩
      | some v => exact ⟨true, _, _, _, rfl, rfl, fun _ _ => rfl⟩
    | quoted => cases h
    | line => cases h
    | enum => cases h
  | enum e =>
    cases g with
    | enum e' =>
      have htraits : e.traits = e'.traits := by
        simpa [Alike, ResponseField.filled] using h
      obtain ⟨hcount, hsame⟩ := enum_parse_eq htraits (skip r)
      simp only [visitField, visitEnum_eq, Option.map_some, ← hcount]
      refine ⟨_, _, _, _, rfl, rfl, fun hok _ => ?_⟩
      rw [hsame (of_decide_eq_true hok)]
    | int => cases h
    | quoted => cases h
    | line => cases h
  | quoted storage =>
    cases g with
    | quoted storage' =>
      apply visitQuoted_alike
      simpa using congrArg List.length (ResponseField.quoted.inj h)
    | int => cases h
    | line => cases h
    | enum => cases h
  | line buf =>
    cases g with
    | line buf' =>
      apply visitLine_alike
      simpa using congrArg List.length (ResponseField.line.inj h)
    | int => cases h
    | quoted => cases h
    | enum => cases h

theorem Alike.cursor_eq {f g f' g' : ResponseField} {input : Text} {length n m : Nat} {ok ok' : Bool}
    (h : Alike f g) (hf : visitField input f length = some (ok, f', n))
    (hg : visitField input g length = some (ok', g', m)) : n = m := by
  rcases visitField_alike h input length with ⟨hnone, -⟩ | ⟨ok, f1, g1, k, hf1, hg1, -⟩
  · rw [hf] at hnone
    cases hnone
  · rw [hf] at hf1
    rw [hg] at hg1
    cases hf1
    cases hg1
    rfl

theorem replicate_inj {c d : Byte} (hcd : c ≠ d) {n : Nat}
    (h : List.replicate n c = List.replicate n d) : n = 0 := by
  rcases List.replicate_inj.1 h with ⟨-, hzero | heq⟩
  · exact hzero
  · exact absurd heq hcd

/-- **What is not overwritten shows**: in storage filled with two different characters. -/
theorem visitField_leaks {c d : Byte} (hc : c ≠ 0) (hd : d ≠ 0) (hcd : c ≠ d) {input : Text}
    {length n m : Nat} {f f' g' : ResponseField}
    (hf : visitField input (f.filled c) length = some (true, f', n))
    (hg : visitField input (f.filled d) length = some (true, g', m)) (hsame : f'.shown = g'.shown) :
    FieldOverwritten (input.drop length) f := by
  rcases Nat.lt_or_ge input.length length with hout | hin
  · rw [visitField_outside hout] at hf
    cases hf
  obtain ⟨pre, r, rfl, rfl⟩ := exists_split hin
  rw [List.drop_left]
  cases f with
  | int i => trivial
  | enum e => trivial
  | quoted storage =>
    by_cases hfits : LiteralFits (skip r) storage.length
    · exact Or.inr hfits
    · left
      have hmiss : ∀ c : Byte, parseStringLiteral (skip r) (List.replicate storage.length c) =
          (2, List.replicate storage.length c) := by
        intro c
        apply parseStringLiteral_misses
        rw [List.length_replicate]
        exact hfits
      simp only [ResponseField.filled, visitField, visitQuoted_eq, hmiss, Option.map_some] at hf hg
      cases hf
      cases hg
      have hshown := ResponseField.quoted.inj hsame
      rw [cString_replicate hc, cString_replicate hd] at hshown
      exact List.length_eq_zero_iff.1 (replicate_inj hcd hshown)
  | line buf =>
    by_cases hzero : (0 : Byte) ∈ lineText r
    · exact Or.inr hzero
    · left
      by_contra hlt
      have hshort : (lineText r).length ≤ buf.length := by omega
      simp only [ResponseField.filled, visitField_line, List.length_replicate,
        Nat.min_eq_left hshort, List.take_of_length_le hshort, List.drop_replicate,
        Option.some.injEq, Prod.mk.injEq] at hf hg
      obtain ⟨-, rfl, -⟩ := hf
      obtain ⟨-, rfl, -⟩ := hg
      have hshown := ResponseField.line.inj hsame
      rw [cString_append_of_not_mem hzero, cString_append_of_not_mem hzero, cString_replicate hc,
        cString_replicate hd] at hshown
      have hnone := replicate_inj hcd (List.append_cancel_left hshown)
      omega

/-! ## All visits of a response -/

/-- The number of fields that are visited. -/
def fieldCount : List Visit → Nat
  | [] => 0
  | .attempt _ :: vs => fieldCount vs
  | .expect _ :: vs => fieldCount vs
  | .field :: vs => fieldCount vs + 1

/-- Each field is overwritten when its visit comes. -/
def Overwrites (input : Text) : List Visit → List ResponseField → Nat → Prop
  | [], fs, _ => fs = []
  | .attempt seq :: vs, fs, length =>
    ∀ ok n, visitSequence input seq length = some (ok, n) → Overwrites input vs fs n
  | .expect seq :: vs, fs, length =>
    ∀ n, visitSequence input seq length = some (true, n) → Overwrites input vs fs n
  | .field :: vs, [], length => Overwrites input vs [] length
  | .field :: vs, f :: fs, length => FieldOverwritten (input.drop length) f ∧
    ∀ f' n, visitField input f length = some (true, f', n) → Overwrites input vs fs n

/-- **Two objects, all visits**: the verdict and the cursor are the same, and where the fields are
overwritten so is what they show. -/
theorem follow_alike (input : Text) : ∀ (vs : List Visit) (fs gs : List ResponseField) (length : Nat),
    fs.map (·.filled 0) = gs.map (·.filled 0) →
      (follow input vs fs length = none ∧ follow input vs gs length = none) ∨
        ∃ ok fs' gs' n, follow input vs fs length = some (ok, fs', n) ∧
          follow input vs gs length = some (ok, gs', n) ∧
          (ok = true → Overwrites input vs fs length → fs'.map (·.shown) = gs'.map (·.shown))
  | [], fs, gs, length, h => by
    refine Or.inr ⟨true, fs, gs, length, rfl, rfl, fun _ hover => ?_⟩
    have hfs : fs = [] := hover
    rw [hfs, List.map_nil] at h
    rw [hfs, List.map_eq_nil_iff.1 h.symm]
  | .attempt seq :: vs, fs, gs, length, h => by
    simp only [follow, Overwrites]
    rcases hvisit : visitSequence input seq length with _ | ⟨ok, n⟩
    · exact Or.inl ⟨rfl, rfl⟩
    · rcases follow_alike input vs fs gs n h with hnone | ⟨ok', fs', gs', m, hf, hg, hshown⟩
      · exact Or.inl hnone
      · exact Or.inr ⟨ok', fs', gs', m, hf, hg, fun hok hover => hshown hok (hover ok n rfl)⟩
  | .expect seq :: vs, fs, gs, length, h => by
    simp only [follow, Overwrites]
    rcases hvisit : visitSequence input seq length with _ | ⟨_ | _, n⟩
    · exact Or.inl ⟨rfl, rfl⟩
    · exact Or.inr ⟨false, fs, gs, n, rfl, rfl, fun hok => by cases hok⟩
    · rcases follow_alike input vs fs gs n h with hnone | ⟨ok', fs', gs', m, hf, hg, hshown⟩
      · exact Or.inl hnone
      · exact Or.inr ⟨ok', fs', gs', m, hf, hg, fun hok hover => hshown hok (hover n rfl)⟩
  | .field :: vs, [], gs, length, h => by
    have hgs : gs = [] := List.map_eq_nil_iff.1 h.symm
    subst hgs
    simp only [follow, Overwrites]
    exact follow_alike input vs [] [] length rfl
  | .field :: vs, f :: fs, [], length, h => by cases h
  | .field :: vs, f :: fs, g :: gs, length, h => by
    obtain ⟨hfg, hrest⟩ := List.cons.inj h
    simp only [follow, Overwrites]
    rcases visitField_alike hfg input length with ⟨hf, hg⟩ | ⟨ok, f', g', n, hf, hg, hfield⟩
    · rw [hf, hg]
      exact Or.inl ⟨rfl, rfl⟩
    · rw [hf, hg]
      cases ok with
      | false => exact Or.inr ⟨false, _, _, n, rfl, rfl, fun hok => by cases hok⟩
      | true =>
        rcases follow_alike input vs fs gs n hrest with ⟨hnf, hng⟩ | ⟨ok', fs', gs', m, hfs, hgs, hshown⟩
        · left
          simp only [hnf, hng, Option.map_none, and_self]
        · right
          refine ⟨ok', f' :: fs', g' :: gs', m, by simp only [hfs, Option.map_some],
            by simp only [hgs, Option.map_some], fun hok hover => ?_⟩
          rw [List.map_cons, List.map_cons, hfield rfl hover.1, hshown hok (hover.2 f' n rfl)]

/-- **Where storage filled with different characters shows the same, it was overwritten.** -/
theorem overwrites_of_same {input : Text} {c d : Byte} (hc : c ≠ 0) (hd : d ≠ 0) (hcd : c ≠ d) :
    ∀ (vs : List Visit) (fs fs' gs' : List ResponseField) (length n m : Nat),
      fieldCount vs = fs.length →
      follow input vs (fs.map (·.filled c)) length = some (true, fs', n) →
      follow input vs (fs.map (·.filled d)) length = some (true, gs', m) →
      fs'.map (·.shown) = gs'.map (·.shown) → Overwrites input vs fs length
  | [], fs, _, _, _, _, _, hcount, _, _, _ => List.length_eq_zero_iff.1 hcount.symm
  | .attempt seq :: vs, fs, fs', gs', length, n, m, hcount, hf, hg, hsame => by
    intro ok k hvisit
    simp only [follow, hvisit] at hf hg
    exact overwrites_of_same hc hd hcd vs fs fs' gs' k n m hcount hf hg hsame
  | .expect seq :: vs, fs, fs', gs', length, n, m, hcount, hf, hg, hsame => by
    intro k hvisit
    simp only [follow, hvisit] at hf hg
    exact overwrites_of_same hc hd hcd vs fs fs' gs' k n m hcount hf hg hsame
  | .field :: vs, [], _, _, _, _, _, hcount, _, _, _ => by cases hcount
  | .field :: vs, f :: fs, fs', gs', length, n, m, hcount, hf, hg, hsame => by
    simp only [List.map_cons, follow] at hf hg
    split at hf
    · cases hf
    · cases hf
    rename_i f1 k hfield
    split at hg
    · cases hg
    · cases hg
    rename_i g1 k' hfield'
    obtain ⟨⟨ok, fs1, n1⟩, hfs, hpair⟩ := Option.map_eq_some_iff.1 hf
    cases hpair
    obtain ⟨⟨ok', gs1, m1⟩, hgs, hpair⟩ := Option.map_eq_some_iff.1 hg
    cases hpair
    rw [List.map_cons, List.map_cons] at hsame
    obtain ⟨hhead, htail⟩ := List.cons.inj hsame
    refine ⟨visitField_leaks hc hd hcd hfield hfield' hhead, fun f2 k2 hvisit => ?_⟩
    -- the visit of the field itself leaves the cursor where those of the filled ones do
    obtain rfl := (filled_alike c f).cursor_eq hvisit hfield
    obtain rfl := (filled_alike d f).cursor_eq hvisit hfield'
    exact overwrites_of_same hc hd hcd vs fs fs1 gs1 _ _ _ (Nat.succ.inj hcount) hfs hgs htail

/-! ## Objects -/

namespace ResponseObject

/-- The object with its fields filled with `c`. -/
def filled (c : Byte) : ResponseObject → ResponseObject
  | .packet tag fields => .packet tag (fields.map (·.filled c))
  | .response tag fields => .response tag (fields.map (·.filled c))
  | .multiLine tag lines =>
    .multiLine tag (lines.map fun line => ⟨line.tag, line.args.map (·.filled c)⟩)

/-- Objects of one class, which only differ in what their fields hold. -/
def SameClass (o a : ResponseObject) : Prop := o.filled 0 = a.filled 0

/-- After an input is accepted, all objects of the class show the same. -/
def NoLeak (o : ResponseObject) (input : Text) : Prop :=
  ∀ (a b a' b' : ResponseObject) (n m : Nat), SameClass o a → SameClass o b →
    a.accept input 0 = some (true, a', n) → b.accept input 0 = some (true, b', m) →
    a'.fields.map (·.shown) = b'.fields.map (·.shown)

theorem fields_filled (o : ResponseObject) (c : Byte) :
    (o.filled c).fields = o.fields.map (·.filled c) := by
  cases o with
  | packet tag fs => rfl
  | response tag fs => rfl
  | multiLine tag lines =>
    show (lines.map _).flatMap _ = (lines.flatMap _).map _
    rw [List.flatMap_map, List.map_flatMap]

theorem visits_filled (o : ResponseObject) (c : Byte) : (o.filled c).visits = o.visits := by
  have hline : ∀ line : Line, lineVisits ⟨line.tag, line.args.map (·.filled c)⟩ =
      lineVisits line := by
    intro line
    simp only [lineVisits, List.length_map]
  cases o with
  | packet tag fs => simp only [filled, visits, List.length_map]
  | response tag fs => simp only [filled, visits, List.length_map]
  | multiLine tag lines => simp only [filled, visits, List.flatMap_map, hline]

theorem filled_sameClass (o : ResponseObject) (c : Byte) : SameClass o (o.filled c) := by
  have hfill : ∀ f : ResponseField, (f.filled c).filled 0 = f.filled 0 :=
    fun f => (filled_alike c f).symm
  unfold SameClass
  cases o with
  | packet tag fs => simp only [filled, List.map_map, Function.comp_def, hfill]
  | response tag fs => simp only [filled, List.map_map, Function.comp_def, hfill]
  | multiLine tag lines => simp only [filled, List.map_map, Function.comp_def, hfill]

theorem fieldCount_append (vs ws : List Visit) :
    fieldCount (vs ++ ws) = fieldCount vs + fieldCount ws := by
  induction vs with
  | nil => exact (Nat.zero_add _).symm
  | cons v vs ih =>
    cases v with
    | attempt seq => exact ih
    | expect seq => exact ih
    | field =>
      simp only [List.cons_append, fieldCount, ih]
      omega

theorem fieldCount_packet (tag term : Text) (n : Nat) :
    fieldCount (packetVisits tag term n) = n := by
  have hfields : ∀ n, fieldCount (fieldVisits n) = n := by
    intro n
    induction n using fieldVisits.induct with
    | case1 => rfl
    | case2 => rfl
    | case3 n ih => simp only [fieldVisits, fieldCount, ih]
  unfold packetVisits
  rw [fieldCount_append, fieldCount_append, hfields]
  split <;> simp [fieldCount]

/-- Every field is visited. -/
theorem fieldCount_visits (o : ResponseObject) : fieldCount o.visits = o.fields.length := by
  have hline : ∀ line : Line, fieldCount (lineVisits line) = line.args.length := by
    intro line
    unfold lineVisits
    rw [fieldCount_append, fieldCount_packet]
    split <;> simp [fieldCount]
  cases o with
  | packet tag fs => exact fieldCount_packet tag _ _
  | response tag fs => exact fieldCount_packet tag _ _
  | multiLine tag lines =>
    have hlines : fieldCount (lines.flatMap lineVisits) = (lines.flatMap (·.args)).length := by
      induction lines with
      | nil => rfl
      | cons line lines ih =>
        rw [List.flatMap_cons, List.flatMap_cons, fieldCount_append, List.length_append, hline, ih]
    show fieldCount (_ ++ (_ :: lines.flatMap lineVisits)) = (lines.flatMap (·.args)).length
    rw [fieldCount_append, ← hlines]
    split <;> simp [fieldCount]

/-- An object that accepts, as its visits. -/
theorem follow_of_accept {o o' : ResponseObject} {input : Text} {ok : Bool} {n : Nat}
    (h : o.accept input 0 = some (ok, o', n)) :
    follow input o.visits o.fields 0 = some (ok, o'.fields, n) := by
  rw [← accept_follow, h]
  rfl

theorem SameClass.visits_eq {o a : ResponseObject} (h : SameClass o a) : o.visits = a.visits := by
  rw [← visits_filled o 0, ← visits_filled a 0, h]

theorem SameClass.fields_eq {o a : ResponseObject} (h : SameClass o a) :
    o.fields.map (·.filled 0) = a.fields.map (·.filled 0) := by
  rw [← fields_filled, ← fields_filled, h]

/-- An object of the class of one that accepts accepts as well. -/
theorem SameClass.accepts {o o' a : ResponseObject} {input : Text} {n : Nat} (h : SameClass o a)
    (haccept : o.accept input 0 = some (true, o', n)) :
    ∃ a', a.accept input 0 = some (true, a', n) := by
  have hfollow := a.accept_follow input 0
  rcases follow_alike input o.visits o.fields a.fields 0 h.fields_eq with
    ⟨hnone, -⟩ | ⟨ok, fs', gs', m, hf, hg, -⟩
  · rw [follow_of_accept haccept] at hnone
    cases hnone
  · rw [follow_of_accept haccept] at hf
    cases hf
    rw [← h.visits_eq, hg] at hfollow
    obtain ⟨⟨ok, a', k⟩, ha, hpair⟩ := Option.map_eq_some_iff.1 hfollow
    cases hpair
    exact ⟨a', ha⟩

/-- **Earlier contents do not show, exactly**: for an input that is accepted, if and only if each
field is overwritten when its visit comes. -/
theorem noLeak_iff {o o' : ResponseObject} {input : Text} {n : Nat}
    (haccept : o.accept input 0 = some (true, o', n)) :
    NoLeak o input ↔ Overwrites input o.visits o.fields 0 := by
  constructor
  · intro hleak
    obtain ⟨a', ha⟩ := (filled_sameClass o 65).accepts haccept
    obtain ⟨b', hb⟩ := (filled_sameClass o 66).accepts haccept
    have hsame := hleak _ _ a' b' n n (filled_sameClass o 65) (filled_sameClass o 66) ha hb
    have hfa := follow_of_accept ha
    have hfb := follow_of_accept hb
    rw [visits_filled, fields_filled] at hfa hfb
    exact overwrites_of_same (by decide) (by decide) (by decide) o.visits o.fields _ _ 0 n n
      (fieldCount_visits o) hfa hfb hsame
  · intro hover a b a' b' k m hoa hob ha hb
    -- each of the two shows what the object itself does
    have hshown : ∀ {a a' : ResponseObject} {k : Nat}, SameClass o a →
        a.accept input 0 = some (true, a', k) →
        o'.fields.map (·.shown) = a'.fields.map (·.shown) := by
      intro a a' k hoa ha
      rcases follow_alike input o.visits o.fields a.fields 0 hoa.fields_eq with
        ⟨hnone, -⟩ | ⟨ok, fs', gs', m, hf, hg, hsame⟩
      · rw [follow_of_accept haccept] at hnone
        cases hnone
      · rw [follow_of_accept haccept] at hf
        rw [hoa.visits_eq, follow_of_accept ha] at hg
        cases hf
        cases hg
        exact hsame rfl hover
    exact (hshown hoa ha).symm.trans (hshown hob hb)

/-- An int, a quoted string and a line text that fills its buffer. -/
theorem noLeak_iff_example :
    NoLeak (.response (text "+R:") [.int 0, .quoted (List.replicate 8 0), .line (List.replicate 4 0)])
        (text "+R: 7,\"abc\",DATA\r\n") ↔
      Overwrites (text "+R: 7,\"abc\",DATA\r\n")
        (ResponseObject.response (text "+R:")
          [.int 0, .quoted (List.replicate 8 0), .line (List.replicate 4 0)]).visits
        (ResponseObject.response (text "+R:")
          [.int 0, .quoted (List.replicate 8 0), .line (List.replicate 4 0)]).fields 0 := by
  have haccept : ((ResponseObject.response (text "+R:")
      [.int 0, .quoted (List.replicate 8 0), .line (List.replicate 4 0)]).accept
      (text "+R: 7,\"abc\",DATA\r\n") 0).map (·.1) = some true := by decide +kernel
  obtain ⟨⟨ok, o', n⟩, haccept, rfl⟩ := Option.map_eq_some_iff.1 haccept
  exact noLeak_iff haccept

/-- The text of a field. -/
def fieldText : ResponseField → Text
  | .int _ => []
  | .quoted storage => storage
  | .line buf => buf
  | .enum _ => []

/-- An empty literal is accepted, and the string of the reply before is still there. -/
theorem empty_literal_leaks :
    (∃ o' n, (ResponseObject.response (text "+R:") [.quoted [0, 0, 0, 0]]).accept
        (text "+R:\"\"\r\n") 0 = some (true, o', n)) ∧
      ¬ NoLeak (.response (text "+R:") [.quoted [0, 0, 0, 0]]) (text "+R:\"\"\r\n") := by
  have hshown : ∀ c ∈ [(0 : Byte), 65], ((ResponseObject.response (text "+R:")
      [.quoted [c, 0, 0, 0]]).accept (text "+R:\"\"\r\n") 0).map
      (fun r => (r.1, r.2.1.fields.map fun f => fieldText f.shown)) =
        some (true, [if c = 0 then [] else [c]]) := by decide +kernel
  obtain ⟨⟨ok, a', n⟩, ha, hpair⟩ := Option.map_eq_some_iff.1 (hshown 0 (by simp))
  obtain ⟨⟨ok', b', m⟩, hb, hpair'⟩ := Option.map_eq_some_iff.1 (hshown 65 (by simp))
  simp only [Prod.mk.injEq] at hpair hpair'
  obtain ⟨rfl, ha'⟩ := hpair
  obtain ⟨rfl, hb'⟩ := hpair'
  refine ⟨⟨a', n, ha⟩, fun hleak => ?_⟩
  have hsame := congrArg (List.map fieldText)
    (hleak _ (.response (text "+R:") [.quoted [65, 0, 0, 0]]) a' b' n m rfl rfl ha hb)
  rw [List.map_map, List.map_map] at hsame
  exact absurd (ha'.symm.trans (hsame.trans hb')) (by decide)

end ResponseObject

end ATLink
