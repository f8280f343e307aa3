import ATLink.Types
import ATLink.Lib.Run

/-!
# The deserializer

Reference model of `utils/Deserializer.h`.  The state of a `Deserializer` is the fixed `input`
and the cursor `length`; a visit is a function of both that returns its verdict, the visited
object afterwards and the new cursor.  `none` is the `std::out_of_range` that
`input.substr(length)` throws when the cursor stands behind the end.

Principal results: `visitSequence_eq`, `visitQuoted_eq`, `visitLine_eq`, `visitEnum_eq` and
`visitInt_eq` — what each visit does at a cursor that splits the input in `pre ++ r`; no visit
throws there.
-/

namespace ATLink

open StringView CharConv

/-- An argument of a response's `accept`, by reference, with its contents. -/
inductive ResponseField where
  | int (i : Int)
  | quoted (storage : Text)
  | line (buf : Text)
  | enum (e : AEnum)

namespace Deserializer

def skipWhitespaces (input : Text) (length : Nat) : Option Nat := do
  let trimmed_input ← substr input length
  match findFirstNotOf blanks trimmed_input with
  | some start => return length + start
  | none => return input.length

/-- `visit(const Sequence &)`. -/
def visitSequence (input seq : Text) (length : Nat) : Option (Bool × Nat) := do
  let length ← skipWhitespaces input length
  let rest ← substr input length
  let n := Sequence.parse seq rest
  return (decide (0 < n), length + n)

/-- `parseStringLiteral`: the number reported and the contents of `out`. -/
def parseStringLiteral (inp out : Text) : Nat × Text :=
  match find [quote] inp with
  | none => (2, out)
  | some start =>
    match findFrom [quote] inp (start + 1) with
    | none => (2, out)
    | some stop =>
      if start + 1 < stop then
        let length := stop - start - 1
        if length < out.length then
          (length + 2, (inp.drop (start + 1)).take length ++ 0 :: out.drop (length + 1))
        else (2, out)
      else (2, out)

/-- `visit(QuotedStringStorage)`. -/
def visitQuoted (input storage : Text) (length : Nat) : Option (Bool × Text × Nat) := do
  let length ← skipWhitespaces input length
  let rest ← substr input length
  let (consumed, storage) := parseStringLiteral rest storage
  return (decide (0 < consumed), storage, length + consumed)

/-- Number of characters `visit(LineText &)` takes from `rest`. -/
def lineTake (rest buf : Text) : Nat :=
  match find Constants.CrLf rest with
  | none => min rest.length buf.length
  | some pos => min pos buf.length

/-- `visit(LineText &)`; blanks are not skipped. -/
def visitLine (input buf : Text) (length : Nat) : Option (Bool × Text × Nat) := do
  let rest ← substr input length
  let take := lineTake rest buf
  return (decide (0 < take), rest.take take ++ buf.drop take, length + take)

/-- `visit(AEnum &)`. -/
def visitEnum (input : Text) (e : AEnum) (length : Nat) : Option (Bool × AEnum × Nat) := do
  let length ← skipWhitespaces input length
  let rest ← substr input length
  let (n, e) := e.parse rest
  return (decide (0 < n), e, length + n)

/-- `visit(int &)`; the characters from `input.data() + length` on are read without `substr`. -/
def visitInt (input : Text) (i : Int) (length : Nat) : Option (Bool × Int × Nat) := do
  let length ← skipWhitespaces input length
  match fromChars INT_MIN INT_MAX (input.drop length) with
  | some (num, n) => return (true, num, length + n)
  | none => return (false, i, length)

/-- The overload of `visit` that a field selects. -/
def visitField (input : Text) (f : ResponseField) (length : Nat) :
    Option (Bool × ResponseField × Nat) :=
  match f with
  | .int i => (visitInt input i length).map fun r => (r.1, .int r.2.1, r.2.2)
  | .quoted storage => (visitQuoted input storage length).map fun r => (r.1, .quoted r.2.1, r.2.2)
  | .line buf => (visitLine input buf length).map fun r => (r.1, .line r.2.1, r.2.2)
  | .enum e => (visitEnum input e length).map fun r => (r.1, .enum r.2.1, r.2.2)

/-! ## Visits at a cursor inside the input -/

/-- The text behind the blanks at the cursor. -/
def skip (r : Text) : Text := skipSet blanks r

/-- The number of blanks at the cursor. -/
def gap (r : Text) : Nat := r.length - (skip r).length

theorem gap_add_skip (r : Text) : gap r + (skip r).length = r.length := by
  have := skipSet_length_le blanks r
  unfold gap skip
  omega

theorem skipWhitespaces_eq (pre r : Text) :
    skipWhitespaces (pre ++ r) pre.length = some (pre.length + gap r) := by
  simp only [skipWhitespaces, substr_append, findFirstNotOf_eq, gap, skip]
  by_cases h : skipSet blanks r = []
  · simp [h]
  · simp [h]

theorem substr_gap (pre r : Text) : substr (pre ++ r) (pre.length + gap r) = some (skip r) := by
  obtain ⟨b, hb, -, hl⟩ := skipSet_split blanks r
  have hg : pre.length + gap r = (pre ++ b).length := by rw [List.length_append, hl]; rfl
  have hi : pre ++ r = (pre ++ b) ++ skip r := by rw [List.append_assoc]; congr 1
  rw [hg, hi, substr_append]

theorem visitSequence_eq (pre r seq : Text) :
    visitSequence (pre ++ r) seq pre.length =
      some (decide (0 < Sequence.parse seq (skip r)),
        pre.length + gap r + Sequence.parse seq (skip r)) := by
  simp [visitSequence, skipWhitespaces_eq, substr_gap]

theorem visitQuoted_eq (pre r storage : Text) :
    visitQuoted (pre ++ r) storage pre.length =
      some (decide (0 < (parseStringLiteral (skip r) storage).1),
        (parseStringLiteral (skip r) storage).2,
        pre.length + gap r + (parseStringLiteral (skip r) storage).1) := by
  simp [visitQuoted, skipWhitespaces_eq, substr_gap]

theorem visitLine_eq (pre r buf : Text) :
    visitLine (pre ++ r) buf pre.length =
      some (decide (0 < lineTake r buf), r.take (lineTake r buf) ++ buf.drop (lineTake r buf),
        pre.length + lineTake r buf) := by
  simp [visitLine, substr_append]

theorem visitEnum_eq (pre r : Text) (e : AEnum) :
    visitEnum (pre ++ r) e pre.length =
      some (decide (0 < (e.parse (skip r)).1), (e.parse (skip r)).2,
        pre.length + gap r + (e.parse (skip r)).1) := by
  simp [visitEnum, skipWhitespaces_eq, substr_gap]

theorem visitInt_eq (pre r : Text) (i : Int) :
    visitInt (pre ++ r) i pre.length =
      some (match fromChars INT_MIN INT_MAX (skip r) with
        | some (num, n) => (true, num, pre.length + gap r + n)
        | none => (false, i, pre.length + gap r)) := by
  have hd : (pre ++ r).drop (pre.length + gap r) = skip r := (substr_eq_some (substr_gap pre r)).2.symm
  simp only [visitInt, skipWhitespaces_eq, Option.bind_eq_bind, Option.bind_some, hd]
  cases fromChars INT_MIN INT_MAX (skip r) <;> rfl

/-- No visit moves the cursor back. -/
theorem visitField_advances {pre r : Text} {f f' : ResponseField} {ok : Bool} {n : Nat}
    (h : visitField (pre ++ r) f pre.length = some (ok, f', n)) : pre.length ≤ n := by
  cases f with
  | int i =>
    simp only [visitField, visitInt_eq, Option.map_some, Option.some.injEq, Prod.mk.injEq] at h
    rw [← h.2.2]
    split
    · exact Nat.le_trans (Nat.le_add_right _ _) (Nat.le_add_right _ _)
    · exact Nat.le_add_right _ _
  | quoted storage =>
    simp only [visitField, visitQuoted_eq, Option.map_some, Option.some.injEq, Prod.mk.injEq] at h
    omega
  | line buf =>
    simp only [visitField, visitLine_eq, Option.map_some, Option.some.injEq, Prod.mk.injEq] at h
    omega
  | enum e =>
    simp only [visitField, visitEnum_eq, Option.map_some, Option.some.injEq, Prod.mk.injEq] at h
    omega

theorem lineTake_le (rest buf : Text) : lineTake rest buf ≤ rest.length := by
  unfold lineTake
  split
  · exact Nat.min_le_left _ _
  · rename_i pos h
    exact Nat.le_trans (Nat.min_le_left _ _) (find_eq_some_iff.1 h).1

/-! ## Literals between quotes -/

/-- A literal that is found and fits is copied and terminated. -/
theorem parseStringLiteral_literal {skipped content rest out : Text} (hs : quote ∉ skipped)
    (hc : quote ∉ content) (hne : content ≠ []) (hfit : content.length < out.length) :
    parseStringLiteral (skipped ++ quote :: content ++ quote :: rest) out =
      (content.length + 2, content ++ 0 :: out.drop (content.length + 1)) := by
  have hstart : find [quote] (skipped ++ quote :: content ++ quote :: rest) = some skipped.length := by
    rw [List.append_assoc, find_append_of_not_mem hs, List.cons_append]
    simp [find, List.isPrefixOf]
  have hstop : findFrom [quote] (skipped ++ quote :: content ++ quote :: rest) (skipped.length + 1) =
      some (skipped.length + 1 + content.length) := by
    have hsplit : skipped ++ quote :: content ++ quote :: rest =
        (skipped ++ [quote]) ++ (content ++ quote :: rest) := by simp
    have hlen : skipped.length + 1 = (skipped ++ [quote]).length := by simp
    rw [hsplit, hlen, findFrom_append, find_append_of_not_mem hc]
    simp [find, List.isPrefixOf]
  have hpos : 0 < content.length := List.length_pos_iff.2 hne
  have hlen : skipped.length + 1 + content.length - skipped.length - 1 = content.length := by omega
  have hcopy : ((skipped ++ quote :: content ++ quote :: rest).drop (skipped.length + 1)).take
      content.length = content := by
    rw [List.append_assoc, ← List.drop_drop, List.drop_left]
    simp
  simp only [parseStringLiteral, hstart, hstop, hlen]
  rw [if_pos (by omega), if_pos hfit, hcopy]

/-- The number reported: two more than the length of what is copied. -/
theorem parseStringLiteral_consumed (inp out : Text) :
    (parseStringLiteral inp out).1 = 2 ∨ (parseStringLiteral inp out).1 ≤ inp.length := by
  unfold parseStringLiteral
  split
  · exact Or.inl rfl
  · rename_i start hstart
    split
    · exact Or.inl rfl
    · rename_i stop hstop
      split
      · simp only
        split
        · right
          unfold findFrom at hstop
          split at hstop
          · obtain ⟨k, hk, rfl⟩ := Option.map_eq_some_iff.1 hstop
            have hlt : k < (inp.drop (start + 1)).length := by
              obtain ⟨r, hr, -, hl⟩ := find_singleton hk
              rw [hr, List.length_append, hl, List.length_cons]
              omega
            rw [List.length_drop] at hlt
            simp only
            omega
          · cases hstop
        · exact Or.inl rfl
      · exact Or.inl rfl

theorem parseStringLiteral_ge (inp out : Text) : 2 ≤ (parseStringLiteral inp out).1 := by
  unfold parseStringLiteral
  split
  · exact Nat.le_refl _
  · split
    · exact Nat.le_refl _
    · split
      · simp only
        split
        · exact Nat.le_add_left _ _
        · exact Nat.le_refl _
      · exact Nat.le_refl _

end Deserializer

end ATLink
