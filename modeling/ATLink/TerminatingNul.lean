import ATLink.Lib.Run
import ATLink.Serializer

/-!
# Runs of serializer visits

Text, quoted text and enums are written only with a character to spare, and the constructor has
zeroed the buffer.  An `int` is written where it just fits.

* `Visit` — a visit of the serializer.
* `Visits` — a serializer after some visits; `encodings` and `kept` are not in the source: what the
  visits that returned true encode, and whether the others left `output()` alone.
* `Terminated` — `output()` is the encodings and a NUL stands behind it.

Principal result: `terminated_iff` — a run of visits is `Terminated` throughout if and only if no
`int` on the way has exactly as many characters as are left.
-/

namespace ATLink

namespace Serializer

open CharConv LabelledRun

inductive Visit where
  | sequence (seq : Text)
  | field (f : CommandField)

/-- The overload of `visit` that is called. -/
def visit (s : Serializer) : Visit → Option (Bool × Serializer)
  | .sequence seq => some (s.visitSequence seq)
  | .field f => s.visitField f

/-- What a visit writes. -/
def Visit.encoding : Visit → Text
  | .sequence seq => seq
  | .field f => encodeField f

structure Visits where
  serializer : Serializer
  encodings : Text
  kept : Bool

namespace Visits

/-- Before the first visit, over the buffer `output`. -/
def init (output : Text) : Visits := ⟨Serializer.init output, [], true⟩

/-- A visit that ends without a failed `assert`. -/
def step (r : Visits) (v : Visit) : Option Visits :=
  match r.serializer.visit v with
  | none => none
  | some (true, s) => some ⟨s, r.encodings ++ v.encoding, r.kept⟩
  | some (false, s) => some ⟨s, r.encodings, r.kept && decide (s.output = r.serializer.output)⟩

/-- `written()` is inside the buffer, where a NUL stands, and the visits have been atomic. -/
structure Terminated (r : Visits) : Prop where
  written_lt : r.serializer.written < r.serializer.buf.length
  nul : r.serializer.buf[r.serializer.written]? = some 0
  output : r.serializer.output = r.encodings
  kept : r.kept = true

/-- A visit of an `int` leaves at least one of the characters that are left. -/
def LeavesNul (r : Visits) : Visit → Prop
  | .field (.int i) => (toChars i).length ≠ r.serializer.rest.length
  | _ => True

end Visits

/-! ## One visit -/

/-- A custom enum value whose string is empty is not written. -/
theorem visitEnum_without_string {E : Text} {k : Nat} {e : AEnum} {ok : Bool} {s' : Serializer}
    (hno : ¬ HasString (.enum e)) (h : (state E k).visitEnum e = some (ok, s')) :
    ok = false ∧ s' = state E k := by
  obtain ⟨c | c, value⟩ := e
  · exact absurd trivial hno
  · unfold visitEnum Enum.stringify EnumCustomStringConverter.stringify at h
    simp only [state_rest] at h
    split at h
    · rename_i str hstr
      obtain rfl : str = [] := by
        by_contra hne
        exact hno ⟨str, hstr, hne⟩
      have hnothing : (if ([] : Text).length < (List.replicate k (0 : Byte)).length then
          some (([] : Text).length, [] ++ (List.replicate k (0 : Byte)).drop ([] : Text).length)
          else some (0, List.replicate k 0)) = some (0, List.replicate k 0) := by
        split <;> rfl
      rw [hnothing] at h
      cases h
      exact ⟨rfl, advance_zero E k⟩
    · cases h

/-- An empty sequence is not written. -/
theorem visitSequence_empty (E : Text) (k : Nat) :
    (state E k).visitSequence [] = (false, state E k) := by
  unfold visitSequence Sequence.stringify
  rw [state_rest]
  split
  · exact congrArg (Prod.mk false) (advance_zero E k)
  · exact congrArg (Prod.mk false) (advance_zero E k)

/-- The outcome of a visit that checks whether its text fits. -/
theorem outcome_of_check {fits : Prop} [Decidable fits] {a b s' : Serializer} {ok : Bool}
    (h : (if fits then (true, a) else (false, b)) = (ok, s')) :
    (ok = true ∧ s' = a ∧ fits) ∨ (ok = false ∧ s' = b ∧ ¬ fits) := by
  split at h
  · rename_i hfits
    cases h
    exact Or.inl ⟨rfl, rfl, hfits⟩
  · rename_i hfits
    cases h
    exact Or.inr ⟨rfl, rfl, hfits⟩

/-- **One visit** writes the whole encoding, with a character to spare unless it is of an `int`, or
changes nothing. -/
theorem visit_state {E : Text} {k : Nat} {v : Visit} {ok : Bool} {s' : Serializer}
    (h : (state E k).visit v = some (ok, s')) :
    (ok = true ∧ s' = state (E ++ v.encoding) (k - v.encoding.length) ∧ v.encoding.length ≤ k ∧
        (v.encoding.length < k ∨ ∃ i, v = .field (.int i))) ∨
      (ok = false ∧ s' = state E k ∧ ∀ i, v = .field (.int i) → k < (toChars i).length) := by
  cases v with
  | sequence seq =>
    simp only [visit, Option.some.injEq] at h
    by_cases hne : seq = []
    · subst hne
      rw [visitSequence_empty] at h
      cases h
      exact Or.inr ⟨rfl, rfl, fun i hi => by cases hi⟩
    · rw [visitSequence_state E seq k hne] at h
      rcases outcome_of_check h with ⟨rfl, rfl, hfit⟩ | ⟨rfl, rfl, -⟩
      · exact Or.inl ⟨rfl, rfl, Nat.le_of_lt hfit, Or.inl hfit⟩
      · exact Or.inr ⟨rfl, rfl, fun i hi => by cases hi⟩
  | field f =>
    cases f with
    | int i =>
      simp only [visit, visitField, visitInt_state, Option.some.injEq] at h
      rcases outcome_of_check h with ⟨rfl, rfl, hfit⟩ | ⟨rfl, rfl, hfit⟩
      · exact Or.inl ⟨rfl, rfl, hfit, Or.inr ⟨i, rfl⟩⟩
      · refine Or.inr ⟨rfl, rfl, fun j hj => ?_⟩
        cases hj
        omega
    | quoted view =>
      simp only [visit, visitField, visitQuoted_state, Option.some.injEq] at h
      rcases outcome_of_check h with ⟨rfl, rfl, hfit⟩ | ⟨rfl, rfl, -⟩
      · exact Or.inl ⟨rfl, rfl, Nat.le_of_lt hfit, Or.inl hfit⟩
      · exact Or.inr ⟨rfl, rfl, fun i hi => by cases hi⟩
    | enum e =>
      simp only [visit, visitField] at h
      by_cases hstring : HasString (.enum e)
      · rw [visitEnum_state E k e hstring, Option.some.injEq] at h
        rcases outcome_of_check h with ⟨rfl, rfl, hfit⟩ | ⟨rfl, rfl, -⟩
        · exact Or.inl ⟨rfl, rfl, Nat.le_of_lt hfit, Or.inl hfit⟩
        · exact Or.inr ⟨rfl, rfl, fun i hi => by cases hi⟩
      · obtain ⟨rfl, rfl⟩ := visitEnum_without_string hstring h
        exact Or.inr ⟨rfl, rfl, fun i hi => by cases hi⟩

/-! ## Runs -/

namespace Visits

/-- After any visits the buffer is the encodings and `k` zeroed characters. -/
def Atomic (k : Nat) (r : Visits) : Prop := r = ⟨state r.encodings k, r.encodings, true⟩

theorem init_atomic (output : Text) : (init output).Atomic output.length := by
  rw [Atomic, init, init_eq]

/-- Room for the NUL is all that is to be asked for. -/
theorem Atomic.terminated_iff_room {r : Visits} {k : Nat} (h : r.Atomic k) : r.Terminated ↔ 0 < k := by
  rw [h]
  constructor
  · intro hr
    have hlt := hr.written_lt
    simp only [state_written] at hlt
    simp only [state, List.length_append, List.length_replicate] at hlt
    omega
  · intro hk
    refine ⟨?_, ?_, state_output _ _, rfl⟩
    · simp only [state_written]
      simp only [state, List.length_append, List.length_replicate]
      omega
    · simp only [state_written]
      obtain ⟨k, rfl⟩ := Nat.exists_eq_succ_of_ne_zero (Nat.pos_iff_ne_zero.1 hk)
      simp [state, List.replicate_succ]

/-- A visit leaves the buffer so, and whether the NUL has room is decided by an `int` that just
fits. -/
theorem Atomic.step {r r' : Visits} {k : Nat} {v : Visit} (hr : r.Atomic k)
    (h : r.step v = some r') :
    ∃ k', r'.Atomic k' ∧ (0 < k → (0 < k' ↔ r.LeavesNul v)) := by
  rw [hr] at h ⊢
  unfold Visits.step at h
  simp only at h
  cases hv : (state r.encodings k).visit v with
  | none => simp only [hv] at h; cases h
  | some p =>
    obtain ⟨ok, s'⟩ := p
    rcases visit_state hv with ⟨rfl, rfl, hle, hroom⟩ | ⟨rfl, rfl, hno⟩
    · simp only [hv] at h
      cases h
      refine ⟨k - v.encoding.length, rfl, fun hk => ?_⟩
      rcases hroom with hlt | ⟨i, rfl⟩
      · refine iff_of_true (by omega) ?_
        unfold LeavesNul
        split
        · have hlt : (toChars _).length < k := hlt
          rw [state_rest, List.length_replicate]
          omega
        · trivial
      · have hle : (toChars i).length ≤ k := hle
        show 0 < k - (toChars i).length ↔ (toChars i).length ≠ (state r.encodings k).rest.length
        rw [state_rest, List.length_replicate]
        omega
    · simp only [hv, decide_true, Bool.and_true] at h
      cases h
      refine ⟨k, rfl, fun hk => iff_of_true hk ?_⟩
      unfold LeavesNul
      split
      · rename_i i
        have hlt := hno i rfl
        rw [state_rest, List.length_replicate]
        omega
      · trivial

theorem step_atomic {r r' : Visits} {v : Visit} (hr : ∃ k, r.Atomic k) (h : r.step v = some r') :
    ∃ k, r'.Atomic k := by
  obtain ⟨k, hr⟩ := hr
  obtain ⟨k', hr', -⟩ := hr.step h
  exact ⟨k', hr'⟩

/-- **Any visits are atomic**, also where no room is left for the NUL. -/
theorem run_atomic {output : Text} {vs : List Visit} {t : Visits}
    (hrun : run step vs (init output) = some t) : ∃ k, t.Atomic k :=
  run_inv (fun _ _ _ hr h => step_atomic hr h) vs (init output) t ⟨_, init_atomic output⟩ hrun

/-- **Visits leave room for the NUL, exactly**: after each visit of a run over a buffer that is not
empty, if and only if no `int` on the way has exactly as many characters as are left. -/
theorem terminated_iff {output : Text} (hne : output ≠ []) {vs : List Visit} {t : Visits}
    (hrun : run step vs (init output) = some t) :
    (∀ pre, pre <+: vs → ∀ u, run step pre (init output) = some u → u.Terminated) ↔
      Guarded step LeavesNul vs (init output) := by
  have hpos : 0 < output.length := List.length_pos_iff.2 hne
  have hstart : (init output).Terminated := (init_atomic output).terminated_iff_room.2 hpos
  refine forall_iff_guarded (fun _ _ _ hr h => step_atomic hr h) ?_ vs _ t ⟨_, init_atomic output⟩
    hstart hrun
  rintro r v r' ⟨k, hr⟩ hterminated h
  obtain ⟨k', hr', hiff⟩ := hr.step h
  rw [hr'.terminated_iff_room]
  exact hiff (hr.terminated_iff_room.1 hterminated)

/-- A tag, a quoted text that does not fit any more, and a number with a character to spare. -/
theorem terminated_iff_example : ∃ t,
    run step [.sequence (text "AT+N="), .field (.quoted (text "name")), .field (.int 42)]
        (init (List.replicate 8 65)) = some t ∧
      ((∀ pre, pre <+: [Visit.sequence (text "AT+N="), .field (.quoted (text "name")),
            .field (.int 42)] →
          ∀ u, run step pre (init (List.replicate 8 65)) = some u → u.Terminated) ↔
        Guarded step LeavesNul
          [.sequence (text "AT+N="), .field (.quoted (text "name")), .field (.int 42)]
          (init (List.replicate 8 65))) :=
  ⟨_, rfl, terminated_iff (List.cons_ne_nil _ _) rfl⟩

/-- A digit fills a buffer of one character. -/
theorem int_fills_buffer : ∃ t,
    run step [.field (.int 7)] (init [65]) = some t ∧ ¬ t.Terminated := by
  refine ⟨⟨⟨[55], 1⟩, [55], true⟩, rfl, fun h => ?_⟩
  exact absurd h.written_lt (by decide)

end Visits

end Serializer

end ATLink
