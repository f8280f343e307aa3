import ATLink.Types

/-!
# The serializer

Reference model of `utils/Serializer.h`.  The state is the buffer handed to the constructor and
the offset at which `rest` starts in it; a visit returns its verdict and the new state.  `none`
is the failed `assert` on a custom enum value without a string.

* `encodeField` — what a field is written as.
* `state E k` — a serializer that has written `E` and has `k` zeroed characters left; the
  constructor makes one (`init_eq`).

Principal results: `visitSequence_state` and `visitField_state` — on such a state a visit either
appends the whole encoding or changes nothing.  The encoding of an `int` is taken when it fits
the rest, all others when they fit with one character to spare.
-/

namespace ATLink

open CharConv

/-- An argument of a command's `accept`. -/
inductive CommandField where
  | int (i : Int)
  | quoted (view : Text)
  | enum (e : AEnum)

structure Serializer where
  buf : Text
  pos : Nat

namespace Serializer

/-- The constructor: `memset(rest.data(), 0, rest.size())`. -/
def init (output : Text) : Serializer := ⟨List.replicate output.length 0, 0⟩

def rest (s : Serializer) : Text := s.buf.drop s.pos

/-- The contents of `rest` replaced, and `rest = rest.subspan(n)`. -/
def advance (s : Serializer) (n : Nat) (contents : Text) : Serializer :=
  ⟨s.buf.take s.pos ++ contents, s.pos + n⟩

def written (s : Serializer) : Nat := s.buf.length - s.rest.length

def output (s : Serializer) : Text := s.buf.take s.written

/-- The copying loop of `writeQuoted`. -/
def escape : Text → Text
  | [] => []
  | c :: txt => if c = quote then backslash :: c :: escape txt else c :: escape txt

def writeQuoted (out txt : Text) : Nat × Text :=
  let extra := txt.count quote
  let need := 2 + txt.length + extra
  if need < out.length then
    let written := quote :: escape txt ++ [quote]
    (written.length, written ++ out.drop written.length)
  else (0, out)

/-- `visit(const Sequence &)`. -/
def visitSequence (s : Serializer) (seq : Text) : Bool × Serializer :=
  let r := Sequence.stringify seq s.rest
  (decide (0 < r.1), s.advance r.1 r.2)

/-- `visit(const QuotedStringView)`. -/
def visitQuoted (s : Serializer) (view : Text) : Bool × Serializer :=
  let r := writeQuoted s.rest view
  (decide (0 < r.1), s.advance r.1 r.2)

/-- `visit(const AEnum &)`. -/
def visitEnum (s : Serializer) (e : AEnum) : Option (Bool × Serializer) :=
  (e.stringify s.rest).map fun r => (decide (0 < r.1), s.advance r.1 r.2)

/-- `visit(int)`. -/
def visitInt (s : Serializer) (i : Int) : Bool × Serializer :=
  match toCharsInto s.rest.length i with
  | some t => (true, s.advance t.length (t ++ s.rest.drop t.length))
  | none => (false, s)

/-- The overload of `visit` that a field selects. -/
def visitField (s : Serializer) : CommandField → Option (Bool × Serializer)
  | .int i => some (s.visitInt i)
  | .quoted view => some (s.visitQuoted view)
  | .enum e => s.visitEnum e

/-! ## Encodings -/

/-- Text in double quotes, with a backslash before each inner quote. -/
def encodeQuoted (txt : Text) : Text :=
  quote :: txt.flatMap (fun c => if c = quote then [backslash, c] else [c]) ++ [quote]

/-- The text of an enum value: decimal, or the string its table gives the value. -/
def encodeEnum (e : AEnum) : Text :=
  match e.traits with
  | .numeric c => toChars (c.toInt e.value)
  | .custom c => (c.lookupString e.value).getD []

def encodeField : CommandField → Text
  | .int i => toChars i
  | .quoted view => encodeQuoted view
  | .enum e => encodeEnum e

/-- A custom enum value stands in its table under a non-empty string. -/
def HasString : CommandField → Prop
  | .enum ⟨.custom c, value⟩ => ∃ k, c.lookupString value = some k ∧ k ≠ []
  | _ => True

theorem escape_eq (txt : Text) :
    escape txt = txt.flatMap fun c => if c = quote then [backslash, c] else [c] := by
  induction txt with
  | nil => rfl
  | cons c txt ih =>
    rw [escape, List.flatMap_cons, ih]
    split <;> rfl

theorem escape_length (txt : Text) : (escape txt).length = txt.length + txt.count quote := by
  induction txt with
  | nil => rfl
  | cons c txt ih =>
    rw [escape, List.count_cons]
    split
    · rename_i h; simp [h, ih]; omega
    · rename_i h; simp [h, ih]; omega

/-- A text without quotes is written as it is. -/
theorem escape_of_not_mem {txt : Text} (h : quote ∉ txt) : escape txt = txt := by
  induction txt with
  | nil => rfl
  | cons c txt ih =>
    rw [escape, if_neg fun hc : c = quote => h (hc ▸ List.mem_cons_self),
      ih fun hm => h (List.mem_cons_of_mem c hm)]

/-- At an inner quote the text goes on with a backslash and that quote. -/
theorem escape_append {a : Text} (h : quote ∉ a) (c : Text) :
    escape (a ++ quote :: c) = a ++ backslash :: quote :: escape c := by
  induction a with
  | nil => simp [escape]
  | cons d a ih =>
    rw [List.cons_append, escape, if_neg fun hd : d = quote => h (hd ▸ List.mem_cons_self),
      ih fun hm => h (List.mem_cons_of_mem d hm)]
    rfl

theorem encodeQuoted_eq (txt : Text) : encodeQuoted txt = quote :: escape txt ++ [quote] := by
  rw [encodeQuoted, escape_eq]

theorem encodeQuoted_length (txt : Text) :
    (encodeQuoted txt).length = 2 + txt.length + txt.count quote := by
  rw [encodeQuoted_eq, List.cons_append, List.length_cons, List.length_append, escape_length,
    List.length_singleton]
  omega

theorem encodeField_ne_nil {f : CommandField} (h : HasString f) : encodeField f ≠ [] := by
  rcases f with i | view | ⟨c | c, value⟩
  · exact toChars_ne_nil i
  · simp [encodeField, encodeQuoted]
  · exact toChars_ne_nil _
  · obtain ⟨k, hk, hne⟩ := h
    simpa [encodeField, encodeEnum, hk] using hne

/-! ## Visits on a zeroed rest -/

/-- `E` is written and `k` zeroed characters are left. -/
def state (E : Text) (k : Nat) : Serializer := ⟨E ++ List.replicate k 0, E.length⟩

theorem init_eq (output : Text) : init output = state [] output.length := by
  simp [init, state]

@[simp] theorem state_rest (E : Text) (k : Nat) : (state E k).rest = List.replicate k 0 := by
  simp [rest, state]

@[simp] theorem state_written (E : Text) (k : Nat) : (state E k).written = E.length := by
  simp [written, state, rest]

@[simp] theorem state_output (E : Text) (k : Nat) : (state E k).output = E := by
  rw [output, state_written]; simp [state]

/-- Writing `e` and leaving the rest of the span alone. -/
theorem advance_state (E e : Text) (k : Nat) :
    (state E k).advance e.length (e ++ (List.replicate k 0).drop e.length) =
      state (E ++ e) (k - e.length) := by
  simp [advance, state, List.drop_replicate]

/-- A visit that writes nothing leaves the state. -/
theorem advance_zero (E : Text) (k : Nat) :
    (state E k).advance 0 (List.replicate k 0) = state E k := by
  simp [advance, state]

theorem visitSequence_state (E seq : Text) (k : Nat) (hne : seq ≠ []) :
    (state E k).visitSequence seq =
      if seq.length < k then (true, state (E ++ seq) (k - seq.length)) else (false, state E k) := by
  have hpos : 0 < seq.length := List.length_pos_iff.2 hne
  simp only [visitSequence, Sequence.stringify, state_rest, List.length_replicate]
  by_cases h : seq.length < k
  · simp only [if_pos h, hpos, decide_true]
    rw [advance_state]
  · simp only [if_neg h, Nat.lt_irrefl, decide_false]
    rw [advance_zero]

theorem visitInt_state (E : Text) (k : Nat) (i : Int) :
    (state E k).visitInt i =
      if (toChars i).length ≤ k then (true, state (E ++ toChars i) (k - (toChars i).length))
      else (false, state E k) := by
  unfold visitInt
  rw [state_rest, List.length_replicate]
  by_cases h : (toChars i).length ≤ k
  · rw [toCharsInto_of_le h, if_pos h]
    simp only
    rw [advance_state]
  · rw [toCharsInto_of_lt (by omega), if_neg h]

theorem visitQuoted_state (E view : Text) (k : Nat) :
    (state E k).visitQuoted view =
      if (encodeQuoted view).length < k then
        (true, state (E ++ encodeQuoted view) (k - (encodeQuoted view).length))
      else (false, state E k) := by
  have hneed : 2 + view.length + view.count quote = (encodeQuoted view).length :=
    (encodeQuoted_length view).symm
  have hpos : 0 < (encodeQuoted view).length := by omega
  simp only [visitQuoted, writeQuoted, state_rest, List.length_replicate, hneed, ← encodeQuoted_eq]
  by_cases h : (encodeQuoted view).length < k
  · simp only [if_pos h, hpos, decide_true]
    rw [advance_state]
  · simp only [if_neg h, Nat.lt_irrefl, decide_false]
    rw [advance_zero]

/-- The numeric conversion also writes a NUL behind the digits, where the rest is zero anyway. -/
theorem numeric_stringify (c : EnumStringConverter Int) (value : Int) (k : Nat) :
    c.stringify value (List.replicate k 0) =
      if (toChars (c.toInt value)).length < k then
        ((toChars (c.toInt value)).length,
          toChars (c.toInt value) ++ (List.replicate k 0).drop (toChars (c.toInt value)).length)
      else (0, List.replicate k 0) := by
  unfold EnumStringConverter.stringify
  rw [List.length_replicate]
  by_cases h : (toChars (c.toInt value)).length < k
  · rw [if_pos (by omega), toCharsInto_of_le (by omega), if_pos h]
    simp only [List.drop_replicate, Prod.mk.injEq, true_and, List.append_cancel_left_eq]
    rw [show k - (toChars (c.toInt value)).length = k - ((toChars (c.toInt value)).length + 1) + 1 by omega,
      List.replicate_succ]
  · rw [if_neg h]
    split
    · rw [toCharsInto_of_lt (by omega)]
    · rfl

theorem visitEnum_state (E : Text) (k : Nat) (e : AEnum) (h : HasString (.enum e)) :
    (state E k).visitEnum e =
      some (if (encodeEnum e).length < k then
        (true, state (E ++ encodeEnum e) (k - (encodeEnum e).length)) else (false, state E k)) := by
  have hpos : 0 < (encodeEnum e).length := List.length_pos_iff.2 (encodeField_ne_nil h)
  unfold visitEnum Enum.stringify
  rw [state_rest]
  obtain ⟨c | c, value⟩ := e
  · have he : encodeEnum ⟨.numeric c, value⟩ = toChars (c.toInt value) := rfl
    rw [he] at hpos ⊢
    simp only [numeric_stringify]
    by_cases hfit : (toChars (c.toInt value)).length < k
    · simp only [if_pos hfit, Option.map_some, hpos, decide_true]
      rw [advance_state]
    · simp only [if_neg hfit, Option.map_some, Nat.lt_irrefl, decide_false]
      rw [advance_zero]
  · obtain ⟨key, hkey, hne⟩ := h
    have he : encodeEnum ⟨.custom c, value⟩ = key := by simp [encodeEnum, hkey]
    rw [he] at hpos ⊢
    simp only [EnumCustomStringConverter.stringify, hkey, List.length_replicate]
    by_cases hfit : key.length < k
    · simp only [if_pos hfit, Option.map_some, hpos, decide_true]
      rw [advance_state]
    · simp only [if_neg hfit, Option.map_some, Nat.lt_irrefl, decide_false]
      rw [advance_zero]

/-- **A visit of a field is atomic**: it appends the encoding or changes nothing; what fits with
a character to spare is taken. -/
theorem visitField_state (E : Text) (k : Nat) (f : CommandField) (h : HasString f) :
    (encodeField f).length ≤ k ∧ (state E k).visitField f =
        some (true, state (E ++ encodeField f) (k - (encodeField f).length)) ∨
      k ≤ (encodeField f).length ∧ (state E k).visitField f = some (false, state E k) := by
  rcases f with i | view | e
  · simp only [visitField, visitInt_state, encodeField]
    split
    · rename_i hle; exact Or.inl ⟨hle, rfl⟩
    · exact Or.inr ⟨by omega, rfl⟩
  · simp only [visitField, visitQuoted_state, encodeField]
    split
    · exact Or.inl ⟨by omega, rfl⟩
    · exact Or.inr ⟨by omega, rfl⟩
  · simp only [visitField, visitEnum_state E k e h, encodeField]
    split
    · exact Or.inl ⟨by omega, rfl⟩
    · exact Or.inr ⟨by omega, rfl⟩

/-- A field that is accepted has a text to be written. -/
theorem hasString_of_visitField {s s' : Serializer} {f : CommandField}
    (h : s.visitField f = some (true, s')) : HasString f := by
  rcases f with i | view | ⟨c | c, value⟩
  · trivial
  · trivial
  · trivial
  · obtain ⟨⟨n, output⟩, hstringify, hpair⟩ := Option.map_eq_some_iff.1 h
    simp only [Prod.mk.injEq, decide_eq_true_eq] at hpair
    simp only [Enum.stringify, EnumCustomStringConverter.stringify] at hstringify
    split at hstringify
    · rename_i str hstr
      refine ⟨str, hstr, fun hnil => ?_⟩
      -- an empty string reports nothing written
      subst hnil
      split at hstringify <;> cases hstringify <;> exact absurd hpair.1 (Nat.lt_irrefl 0)
    · cases hstringify

end Serializer

end ATLink
