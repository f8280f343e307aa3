import ATLink.Deserializer

/-!
# The cursor of the deserializer

`Call` is one call of a `Deserializer`: a visit of any kind, or `rewind`.  `consumed` is the
cursor after the call, `none` when the call throws.

* `CallsInRange` — after each call of a sequence the cursor stands inside the input, and no
  call throws.
* `Fits` — the condition on one call under which this is so.  Only two calls can violate it: a
  visit of a quoted string that finds fewer than two characters behind the blanks
  (`parseStringLiteral` reports two characters also where it found no literal), and a visit of
  a custom-string enum whose value has an earlier spelling that is longer than the text left
  (the length is looked up by value, not taken from the record that matched).

Principal result: `callsInRange_iff` — a sequence of calls keeps the cursor in range exactly
when every call of it fits.
-/

namespace ATLink.Deserializer

open StringView CharConv LabelledRun

/-- One call of a deserializer. -/
inductive Call where
  | sequence (seq : Text)
  | field (f : ResponseField)
  | rewind

/-- `consumed()` after the call. -/
def consumed (input : Text) (length : Nat) : Call → Option Nat
  | .sequence seq => (visitSequence input seq length).map (·.2)
  | .field f => (visitField input f length).map (·.2.2)
  | .rewind => some 0

/-- After each of the calls the cursor is inside the input. -/
def CallsInRange (input : Text) (calls : List Call) : Prop :=
  ∀ pre, pre <+: calls → ∃ length, run (consumed input) pre 0 = some length ∧ length ≤ input.length

/-- The first spelling of the value matched is not longer than the text. -/
def SpellingFits (e : AEnum) (rest : Text) : Prop :=
  match e.traits with
  | .numeric _ => True
  | .custom c => ∀ v k, c.lookup rest = some v → c.lookupString v = some k → k.length ≤ rest.length

/-- The call leaves the cursor inside the input. -/
def Fits (input : Text) (length : Nat) : Call → Prop
  | .field (.quoted _) => 2 ≤ (skip (input.drop length)).length
  | .field (.enum e) => SpellingFits e (skip (input.drop length))
  | _ => True

theorem spellingFits_iff (e : AEnum) (rest : Text) :
    (e.parse rest).1 ≤ rest.length ↔ SpellingFits e rest := by
  unfold Enum.parse SpellingFits
  cases e.traits with
  | numeric c => exact iff_of_true (c.parse_le e.value rest) trivial
  | custom c =>
    simp only [EnumCustomStringConverter.parse]
    cases hl : c.lookup rest with
    | none => simp
    | some v =>
      obtain ⟨k, hk, -⟩ := EnumCustomStringConverter.lookup_sound hl
      obtain ⟨k', hk'⟩ := EnumCustomStringConverter.lookupString_isSome hk
      simp only [hk', Option.map_some, Option.getD_some]
      constructor
      · intro hle v' k'' hv hk''
        cases hv
        rw [hk'] at hk''
        cases hk''
        exact hle
      · intro hle
        exact hle v k' rfl hk'

/-- A visit behind the blanks stays inside exactly when it takes no more than is left. -/
theorem cursor_le_iff (pre r : Text) (n : Nat) :
    pre.length + gap r + n ≤ (pre ++ r).length ↔ n ≤ (skip r).length := by
  have := gap_add_skip r
  rw [List.length_append]
  omega

theorem visitInt_in_range (pre r : Text) (i : Int) :
    ∃ v, visitInt (pre ++ r) i pre.length = some v ∧ v.2.2 ≤ (pre ++ r).length := by
  refine ⟨_, visitInt_eq pre r i, ?_⟩
  cases h : fromChars INT_MIN INT_MAX (skip r) with
  | none => exact (cursor_le_iff pre r 0).2 (Nat.zero_le _)
  | some v => exact (cursor_le_iff pre r v.2).2 (fromChars_length_le h)

/-- **One call**: from a cursor inside the input a call neither throws nor leaves the input
exactly when it fits. -/
theorem consumed_iff (input : Text) (length : Nat) (call : Call) (h : length ≤ input.length) :
    (∃ length', consumed input length call = some length' ∧ length' ≤ input.length) ↔
      Fits input length call := by
  obtain ⟨pre, r, rfl, rfl⟩ := exists_split h
  have hdrop : (pre ++ r).drop pre.length = r := List.drop_left
  cases call with
  | sequence seq =>
    refine iff_of_true ⟨_, by rw [consumed, visitSequence_eq, Option.map_some], ?_⟩ trivial
    exact (cursor_le_iff pre r _).2 (Sequence.parse_le _ _)
  | rewind => exact iff_of_true ⟨0, rfl, Nat.zero_le _⟩ trivial
  | field f =>
    cases f with
    | int i =>
      obtain ⟨v, hv, hle⟩ := visitInt_in_range pre r i
      exact iff_of_true ⟨v.2.2, by simp [consumed, visitField, hv], hle⟩ trivial
    | line buf =>
      refine iff_of_true ⟨_, by simp [consumed, visitField, visitLine_eq]; rfl, ?_⟩ trivial
      have := lineTake_le r buf
      rw [List.length_append]
      omega
    | quoted storage =>
      simp only [consumed, visitField, visitQuoted_eq, Option.map_some, Option.some.injEq,
        exists_eq_left', cursor_le_iff, Fits, hdrop]
      have hge := parseStringLiteral_ge (skip r) storage
      rcases parseStringLiteral_consumed (skip r) storage with h2 | h2 <;> omega
    | enum e =>
      simp only [consumed, visitField, visitEnum_eq, Option.map_some, Option.some.injEq,
        exists_eq_left', cursor_le_iff, Fits, hdrop]
      exact spellingFits_iff e (skip r)

/-- **The cursor stays inside the input exactly when every call fits**: no quoted string is
visited with fewer than two characters behind the blanks, and no enum is matched under a
spelling whose value has an earlier, longer one that does not fit. -/
theorem callsInRange_iff (input : Text) (calls : List Call) :
    CallsInRange input calls ↔ Guarded (consumed input) (Fits input) calls 0 := by
  unfold CallsInRange
  rw [← always_iff_forall (P := fun length => length ≤ input.length) calls 0]
  exact always_iff_guarded (fun length call h => consumed_iff input length call h) calls 0
    (Nat.zero_le _)

/-- The visits of a response `+FOO: <int>,<quoted>` on a line that ends behind the comma: the
visit of the quoted string moves the cursor two characters behind the end. -/
theorem quoted_visit_leaves_the_input :
    ¬ CallsInRange (text "+FOO:7,")
      [.sequence (text "+FOO:"), .field (.int 0), .sequence Constants.Comma,
        .field (.quoted [0, 0, 0, 0]), .sequence Constants.CrLf] := by
  intro h
  obtain ⟨length, hrun, hle⟩ := h
    [.sequence (text "+FOO:"), .field (.int 0), .sequence Constants.Comma,
      .field (.quoted [0, 0, 0, 0])] ⟨[.sequence Constants.CrLf], rfl⟩
  have hnine : run (consumed (text "+FOO:7,"))
      [.sequence (text "+FOO:"), .field (.int 0), .sequence Constants.Comma,
        .field (.quoted [0, 0, 0, 0])] 0 = some 9 := by decide +kernel
  rw [hnine] at hrun
  cases hrun
  exact absurd hle (by decide)

end ATLink.Deserializer
