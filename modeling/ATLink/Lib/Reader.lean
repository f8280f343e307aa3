import Mathlib.Data.List.Basic

/-!
# Greedy readers of a stream that arrives in fragments

* `Reader` — consumes a text from the front in steps, each decided on all of the text that is
  there; what has been found so far is the progress `P`.
* `Reads` — a maximal sequence of steps.
* `Finishes` — the text arrives in fragments, a sequence of steps is made after each one, and
  every sequence starts from the same progress: nothing found before is remembered, only the
  text left over is.  It finishes with the first sequence that completes.
* `Undecided`, `Decided` — what reading a fragment may do without harm: skip text that would be
  skipped with the rest behind it as well, or complete in steps that would be made then as well.
* `Meets` — all fragments that have more text behind them are of this kind.
* `Feeds` — the text arrives in fragments and each sequence goes on from the progress of the one
  before.
* `Stable` — what is accepted is accepted with any text behind it.
* `AtOnce` — no step makes progress short of completion.

Principal results: `Meets.finishes` — where all fragments are harmless, reading them finishes with
the progress that reading the whole text ends with; `Feeds.reads` — feeding a stable reader
fragments is reading the whole text; `Reads.finishes` and `Finishes.reads` — where all is found at
once, a stable reader may have its text cut anywhere.
-/

namespace FragmentReader

/-- The verdict of a parser on a text. -/
inductive Verdict (β : Type) where
  | throws
  | rejects
  | accepts (value : β) (consumed : Nat)
  deriving DecidableEq

namespace Verdict

variable {β γ : Type}

def map (f : β → γ) : Verdict β → Verdict γ
  | throws => throws
  | rejects => rejects
  | accepts value consumed => accepts (f value) consumed

/-- The second parser is asked where the first one rejects. -/
def orElse (v w : Verdict β) : Verdict β :=
  match v with
  | throws => throws
  | rejects => w
  | accepts value consumed => accepts value consumed

@[simp] theorem rejects_orElse (w : Verdict β) : rejects.orElse w = w := rfl

/-- A parser that reports more than the `n` characters it was given throws. -/
def within (n : Nat) : Verdict β → Verdict β
  | accepts value consumed => if consumed ≤ n then accepts value consumed else throws
  | v => v

theorem within_eq_accepts {n consumed : Nat} {v : Verdict β} {value : β} :
    v.within n = accepts value consumed ↔ v = accepts value consumed ∧ consumed ≤ n := by
  cases v with
  | throws => simp [within]
  | rejects => simp [within]
  | accepts value' consumed' =>
    simp only [within]
    split
    · rename_i hle
      constructor
      · intro h
        cases h
        exact ⟨rfl, hle⟩
      · exact And.left
    · rename_i hle
      constructor
      · intro h
        cases h
      · rintro ⟨h, h'⟩
        cases h
        exact absurd h' hle

theorem within_eq_rejects {n : Nat} {v : Verdict β} : v.within n = rejects ↔ v = rejects := by
  cases v with
  | throws => simp [within]
  | rejects => simp [within]
  | accepts value consumed =>
    simp only [within]
    split <;> simp

theorem map_throws {n : Nat} {v : Verdict β} (f : β → γ) (h : v.within n = throws) :
    (v.map f).within n = throws := by
  cases v with
  | throws => rfl
  | rejects => cases h
  | accepts value consumed =>
    simp only [within] at h
    split at h
    · cases h
    · rename_i hle
      exact if_neg hle

theorem orElse_throws {n : Nat} {v : Verdict β} (w : Verdict β) (h : v.within n = throws) :
    (v.orElse w).within n = throws := by
  cases v with
  | throws => rfl
  | rejects => cases h
  | accepts value consumed => exact h

end Verdict

/-- A step takes at most what is there; complete progress is final. -/
structure Reader (α P : Type) where
  step : P → List α → Verdict P
  complete : P → Prop
  fits : ∀ {p p' : P} {x : List α} {n : Nat}, step p x = .accepts p' n → n ≤ x.length
  keeps : ∀ {p p' : P} {x : List α} {n : Nat}, complete p → step p x = .accepts p' n → p' = p

namespace Reader

variable {α P : Type} (R : Reader α P)

/-- Steps until one takes nothing. -/
inductive Reads : P → List α → P → List α → Prop where
  | done {p : P} {x : List α} : R.step p x = .rejects → Reads p x p x
  | next {p p' q : P} {x y : List α} {n : Nat} : R.step p x = .accepts p' n →
      Reads p' (x.drop n) q y → Reads p x q y

/-- Steps that leave the progress as it is. -/
inductive Skips (p : P) : List α → List α → Prop where
  | refl {x : List α} : Skips p x x
  | step {x y : List α} {n : Nat} : R.step p x = .accepts p n → Skips p (x.drop n) y → Skips p x y

/-- Reading `x` from `p` finds nothing and leaves `rest`, and with `t` behind the text as much of
it is skipped. -/
structure Undecided (t : List α) (p : P) (x rest : List α) : Prop where
  reads : R.Reads p x p rest
  skips : R.Skips p (x ++ t) (rest ++ t)

/-- Reading `x` from `p` completes, and up to there no step of it would change with `t` behind
the text. -/
inductive Decided (t : List α) : P → List α → Prop where
  | complete {p q : P} {x y : List α} : R.complete p → R.Reads p x q y → Decided t p x
  | next {p p' : P} {x : List α} {n : Nat} : R.step p x = .accepts p' n →
      R.step p (x ++ t) = .accepts p' n → Decided t p' (x.drop n) → Decided t p x

/-- The fragments, with `u` left over from earlier ones, are harmless: each but the last of them
is undecided, or one is decided. -/
inductive Meets (p₀ : P) : List α → List (List α) → Prop where
  | last {u c : List α} : Meets p₀ u [c]
  | decided {u c : List α} {cs : List (List α)} : R.Decided cs.flatten p₀ (u ++ c) →
      Meets p₀ u (c :: cs)
  | undecided {u c rest : List α} {cs : List (List α)} :
      R.Undecided cs.flatten p₀ (u ++ c) rest → Meets p₀ rest cs → Meets p₀ u (c :: cs)

/-- Reading the fragments, with `u` left over from earlier ones, finishes with the progress
`q`. -/
inductive Finishes (p₀ : P) : List α → List (List α) → P → Prop where
  | now {u c y : List α} {cs : List (List α)} {q : P} : R.Reads p₀ (u ++ c) q y →
      R.complete q → Finishes p₀ u (c :: cs) q
  | later {u c y : List α} {cs : List (List α)} {p q : P} : R.Reads p₀ (u ++ c) p y →
      ¬ R.complete p → Finishes p₀ y cs q → Finishes p₀ u (c :: cs) q

variable {R} {p p' q : P} {x y t rest : List α}

/-- Complete progress is not changed by further steps. -/
theorem Reads.of_complete (h : R.Reads p x q y) (hp : R.complete p) : q = p := by
  induction h with
  | done _ => rfl
  | next hstep _ ih =>
    have hsame := R.keeps hp hstep
    rw [ih (hsame ▸ hp), hsame]

/-- What is left is the end of the text. -/
theorem Reads.suffix (h : R.Reads p x q y) : y <:+ x := by
  induction h with
  | done _ => exact List.suffix_refl _
  | next _ _ ih => exact ih.trans (List.drop_suffix _ _)

theorem drop_append_of_fits {n : Nat} (h : R.step p x = .accepts p' n) :
    (x ++ t).drop n = x.drop n ++ t := List.drop_append_of_le_length (R.fits h)

/-- A reading goes on from what is skipped. -/
theorem Skips.reads (h : R.Skips p x rest) (hread : R.Reads p x q y) : R.Reads p rest q y := by
  induction h with
  | refl => exact hread
  | step hstep _ ih =>
    cases hread with
    | done hreject => rw [hstep] at hreject; cases hreject
    | next hstep' hread =>
      rw [hstep] at hstep'
      cases hstep'
      exact ih hread

/-- Decided reading ends with the progress that reading on would end with. -/
theorem Decided.reads (h : R.Decided t p x) (hread : R.Reads p (x ++ t) q y) :
    R.complete q ∧ ∃ y', R.Reads p x q y' := by
  induction h with
  | complete hp hread' =>
    rw [hread'.of_complete hp] at hread'
    rw [hread.of_complete hp]
    exact ⟨hp, _, hread'⟩
  | next hstep hmore _ ih =>
    cases hread with
    | done hreject => rw [hmore] at hreject; cases hreject
    | next hstep' hread =>
      rw [hmore] at hstep'
      cases hstep'
      rw [drop_append_of_fits hstep] at hread
      obtain ⟨hq, y', hy'⟩ := ih hread
      exact ⟨hq, y', .next hstep hy'⟩

/-- **Reading in fragments**: where the fragments are harmless it finishes with the progress that
reading the whole text ends with. -/
theorem Meets.finishes {u : List α} {cs : List (List α)} (h : R.Meets p u cs)
    (hp : ¬ R.complete p) (hread : R.Reads p (u ++ cs.flatten) q y) (hq : R.complete q) :
    R.Finishes p u cs q := by
  induction h with
  | last =>
    rw [List.flatten_singleton] at hread
    exact .now hread hq
  | decided hdecided =>
    rw [List.flatten_cons, ← List.append_assoc] at hread
    obtain ⟨-, y', hy'⟩ := hdecided.reads hread
    exact .now hy' hq
  | undecided hundecided _ ih =>
    rw [List.flatten_cons, ← List.append_assoc] at hread
    exact .later hundecided.reads hp (ih (hundecided.skips.reads hread))

/-! ## Progress that is kept -/

variable (R) in
/-- Reading the fragments one after the other, with `u` left over from earlier ones; `rest` is
left over at the end. -/
inductive Feeds : P → List α → List (List α) → P → List α → Prop where
  | nil {p : P} {u : List α} : Feeds p u [] p u
  | cons {p p' q : P} {u c y rest : List α} {cs : List (List α)} : R.Reads p (u ++ c) p' y →
      Feeds p' y cs q rest → Feeds p u (c :: cs) q rest

variable (R) in
/-- A step that is taken is taken with any text behind it as well. -/
def Stable : Prop :=
  ∀ p p' x n t, R.step p x = .accepts p' n → R.step p (x ++ t) = .accepts p' n

/-- Where reading ends nothing more is taken. -/
theorem Reads.rejects (h : R.Reads p x q y) : R.step q y = .rejects := by
  induction h with
  | done hreject => exact hreject
  | next _ _ ih => exact ih

theorem Reads.unique {q' : P} {y' : List α} (h : R.Reads p x q y) (h' : R.Reads p x q' y') :
    q = q' ∧ y = y' := by
  induction h with
  | done hreject =>
    cases h' with
    | done _ => exact ⟨rfl, rfl⟩
    | next hstep _ => rw [hreject] at hstep; cases hstep
  | next hstep _ ih =>
    cases h' with
    | done hreject => rw [hstep] at hreject; cases hreject
    | next hstep' hread =>
      rw [hstep] at hstep'
      cases hstep'
      exact ih hread

/-- A stable reader goes on with more text as if it had been there from the start. -/
theorem Reads.append {z : List α} (hstable : R.Stable) (h : R.Reads p x p' y)
    (hmore : R.Reads p' (y ++ t) q z) : R.Reads p (x ++ t) q z := by
  induction h with
  | done _ => exact hmore
  | next hstep _ ih =>
    refine .next (hstable _ _ _ _ t hstep) ?_
    rw [drop_append_of_fits hstep]
    exact ih hmore

/-- **Feeding fragments**: from a text that is read to its end, a stable reader comes to the same
progress and leaves the same text as from the whole. -/
theorem Feeds.reads {u : List α} {cs : List (List α)} (hstable : R.Stable)
    (h : R.Feeds p u cs q rest) (hu : R.step p u = .rejects) :
    R.Reads p (u ++ cs.flatten) q rest := by
  induction h with
  | nil =>
    rw [List.flatten_nil, List.append_nil]
    exact .done hu
  | cons hread _ ih =>
    rw [List.flatten_cons, ← List.append_assoc]
    exact hread.append hstable (ih hread.rejects)

/-- A reader that never throws and takes something in every step comes to an end. -/
theorem exists_reads (hnext : ∀ p x, R.step p x = .rejects ∨
      ∃ p' n, R.step p x = .accepts p' n ∧ 0 < n) (p : P) (x : List α) :
    ∃ q y, R.Reads p x q y := by
  rcases hnext p x with hreject | ⟨p', n, hstep, hpos⟩
  · exact ⟨p, x, .done hreject⟩
  · have hfits := R.fits hstep
    have hless : (x.drop n).length < x.length := by
      rw [List.length_drop]
      omega
    obtain ⟨q, y, hread⟩ := exists_reads hnext p' (x.drop n)
    exact ⟨q, y, .next hstep hread⟩
termination_by x.length

/-! ## Progress that is found at once -/

variable (R) in
/-- A step from `p` leaves the progress as it is or completes it. -/
def AtOnce (p : P) : Prop := ∀ p' x n, R.step p x = .accepts p' n → p' = p ∨ R.complete p'

theorem Reads.at_once (hp : R.AtOnce p) (h : R.Reads p x q y) :
    R.complete q ∨ q = p ∧ R.Skips p x y := by
  induction h with
  | done _ => exact Or.inr ⟨rfl, .refl⟩
  | next hstep hread ih =>
    rcases hp _ _ _ hstep with rfl | hcomplete
    · rcases ih hp with hq | ⟨rfl, hskips⟩
      · exact Or.inl hq
      · exact Or.inr ⟨rfl, .step hstep hskips⟩
    · rw [hread.of_complete hcomplete]
      exact Or.inl hcomplete

/-- A stable reader skips the same with more text behind it. -/
theorem Skips.append (hstable : R.Stable) (h : R.Skips p x y) : R.Skips p (x ++ t) (y ++ t) := by
  induction h with
  | refl => exact .refl
  | step hstep _ ih =>
    refine .step (hstable _ _ _ _ t hstep) ?_
    rw [drop_append_of_fits hstep]
    exact ih

/-- **Any cut is harmless** to a stable reader that finds all at once: it finishes with what reading
the whole text completes with. -/
theorem Reads.finishes {u : List α} {cs : List (List α)} (hstable : R.Stable) (hp : R.AtOnce p)
    (hnext : ∀ p x, R.step p x = .rejects ∨ ∃ p' n, R.step p x = .accepts p' n ∧ 0 < n)
    (hcs : cs ≠ []) (h : R.Reads p (u ++ cs.flatten) q y) (hq : R.complete q) :
    R.Finishes p u cs q := by
  induction cs generalizing u with
  | nil => exact absurd rfl hcs
  | cons c cs ih =>
    rw [List.flatten_cons, ← List.append_assoc] at h
    obtain ⟨q1, y1, h1⟩ := exists_reads hnext p (u ++ c)
    by_cases hq1 : R.complete q1
    · -- what is found in the first fragments is found with the rest behind them
      obtain ⟨q2, y2, h2⟩ := exists_reads hnext q1 (y1 ++ cs.flatten)
      obtain ⟨rfl, -⟩ := (h1.append hstable h2).unique h
      rw [h2.of_complete hq1]
      exact .now h1 hq1
    · obtain ⟨rfl, hskips⟩ := (h1.at_once hp).resolve_left hq1
      cases cs with
      | nil =>
        rw [List.flatten_nil, List.append_nil] at h
        rw [(h1.unique h).1] at hq1
        exact absurd hq hq1
      | cons c' cs =>
        exact .later h1 hq1 (ih (by simp) ((hskips.append hstable).reads h))

/-- What such a reader finishes with it would also complete with on the whole text. -/
theorem Finishes.reads {u : List α} {cs : List (List α)} (hstable : R.Stable) (hp : R.AtOnce p)
    (hnext : ∀ p x, R.step p x = .rejects ∨ ∃ p' n, R.step p x = .accepts p' n ∧ 0 < n)
    (h : R.Finishes p u cs q) : R.complete q ∧ ∃ y, R.Reads p (u ++ cs.flatten) q y := by
  induction h with
  | @now u c y cs q hread hq =>
    obtain ⟨q2, y2, h2⟩ := exists_reads hnext q (y ++ cs.flatten)
    have hsame := h2.of_complete hq
    subst hsame
    rw [List.flatten_cons, ← List.append_assoc]
    exact ⟨hq, y2, hread.append hstable h2⟩
  | @later u c y cs p1 q hread hp1 _ ih =>
    obtain ⟨rfl, -⟩ := (hread.at_once hp).resolve_left hp1
    obtain ⟨hq, y2, h2⟩ := ih
    rw [List.flatten_cons, ← List.append_assoc]
    exact ⟨hq, y2, hread.append hstable h2⟩

end Reader

end FragmentReader
