import Mathlib.Logic.Basic
import Mathlib.Data.List.Basic

/-!
# Runs of a partial labelled transition function

A system is a function `step : S → L → Option S`; `none` means that the label cannot be
taken (or that taking it ends the run abnormally).

* `run` — the labels taken one after the other.
* `Guarded` — every step of the run that is taken meets a condition on the state before it.
* `Always` — no step fails and a property holds in every state passed, the last included.
* `total` — what the steps of a run cost together.
* `Leads` — some labels of a kind lead from one state to another.

Principal results: `run_inv` (the invariant rule), `run_total_le` (the potential rule: where every
step is paid for by a potential, so is the run), `always_iff_forall` (`Always` speaks of the
states after every prefix), `forall_of_guarded` (the invariant rule for steps that meet a guard),
`always_iff_guarded` and `forall_iff_guarded` (where a single step keeps the property exactly under
a guard, a whole run does).
-/

namespace LabelledRun

variable {S L : Type} {step : S → L → Option S}

/-- Take the labels in order. -/
def run (step : S → L → Option S) : List L → S → Option S
  | [], s => some s
  | l :: ls, s => (step s l).bind (run step ls)

/-- Every step taken on the way meets `G` in the state it starts from. -/
def Guarded (step : S → L → Option S) (G : S → L → Prop) : List L → S → Prop
  | [], _ => True
  | l :: ls, s => G s l ∧ ∀ s', step s l = some s' → Guarded step G ls s'

/-- No step fails and `P` holds in every state on the way. -/
def Always (step : S → L → Option S) (P : S → Prop) : List L → S → Prop
  | [], s => P s
  | l :: ls, s => P s ∧ ∃ s', step s l = some s' ∧ Always step P ls s'

@[simp] theorem run_nil (s : S) : run step [] s = some s := rfl

theorem run_cons (l : L) (ls : List L) (s : S) :
    run step (l :: ls) s = (step s l).bind (run step ls) := rfl

theorem run_cons_some {l : L} {ls : List L} {s t : S} (h : run step (l :: ls) s = some t) :
    ∃ s', step s l = some s' ∧ run step ls s' = some t := by
  rw [run_cons] at h
  exact Option.bind_eq_some_iff.1 h

/-- **The invariant rule**: what every step keeps, every run keeps. -/
theorem run_inv {P : S → Prop} (hstep : ∀ s l s', P s → step s l = some s' → P s') :
    ∀ (ls : List L) (s t : S), P s → run step ls s = some t → P t := by
  intro ls
  induction ls with
  | nil => intro s t hs h; cases h; exact hs
  | cons l ls ih =>
    intro s t hs h
    obtain ⟨s', h1, h2⟩ := run_cons_some h
    exact ih s' t (hstep s l s' hs h1) h2

theorem run_append (ls ms : List L) (s : S) :
    run step (ls ++ ms) s = (run step ls s).bind (run step ms) := by
  induction ls generalizing s with
  | nil => rfl
  | cons l ls ih =>
    rw [List.cons_append, run_cons, run_cons]
    cases step s l with
    | none => rfl
    | some s' => exact ih s'

/-- The sum of the costs of the steps taken. -/
def total (step : S → L → Option S) (cost : S → S → Nat) : List L → S → Nat
  | [], _ => 0
  | l :: ls, s =>
    match step s l with
    | none => 0
    | some s' => cost s s' + total step cost ls s'

/-- **The potential rule**: where each step costs no more than the potential it gives up, the run
does not either.  `R` is an invariant of all steps. -/
theorem run_total_le {R : S → Prop} {cost : S → S → Nat} {potential : S → Nat}
    (hinv : ∀ s l s', R s → step s l = some s' → R s')
    (hstep : ∀ s l s', R s → step s l = some s' → cost s s' + potential s' ≤ potential s) :
    ∀ (ls : List L) (s t : S), R s → run step ls s = some t →
      total step cost ls s + potential t ≤ potential s := by
  intro ls
  induction ls with
  | nil =>
    intro s t _ h
    cases h
    exact Nat.le_of_eq (Nat.zero_add _)
  | cons l ls ih =>
    intro s t hs h
    obtain ⟨s', h1, h2⟩ := run_cons_some h
    have hpaid := hstep s l s' hs h1
    have hrest := ih s' t (hinv s l s' hs h1) h2
    simp only [total, h1]
    omega

theorem Always.here {P : S → Prop} {ls : List L} {s : S} (h : Always step P ls s) : P s := by
  cases ls with
  | nil => exact h
  | cons l ls => exact h.1

/-- `Always` is a statement about the state after every prefix of the run. -/
theorem always_iff_forall {P : S → Prop} (ls : List L) (s : S) :
    Always step P ls s ↔ ∀ pre, pre <+: ls → ∃ t, run step pre s = some t ∧ P t := by
  induction ls generalizing s with
  | nil =>
    constructor
    · intro h pre hp
      rw [List.prefix_nil.1 hp]
      exact ⟨s, rfl, h⟩
    · intro h
      obtain ⟨t, ht, hP⟩ := h [] (List.nil_prefix)
      cases ht
      exact hP
  | cons l ls ih =>
    constructor
    · rintro ⟨hs, s', h1, h2⟩ pre hp
      cases pre with
      | nil => exact ⟨s, rfl, hs⟩
      | cons m pre =>
        obtain ⟨rfl, hp'⟩ := List.cons_prefix_cons.1 hp
        obtain ⟨t, ht, hP⟩ := (ih s').1 h2 pre hp'
        exact ⟨t, by rw [run_cons, h1]; exact ht, hP⟩
    · intro h
      obtain ⟨t0, ht0, hs⟩ := h [] (List.nil_prefix)
      cases ht0
      obtain ⟨s', h1, -⟩ := h [l] (by simp)
      rw [run_cons] at h1
      cases hst : step s l with
      | none => rw [hst] at h1; cases h1
      | some s1 =>
        refine ⟨hs, s1, hst, (ih s1).2 fun pre hp => ?_⟩
        obtain ⟨t, ht, hP⟩ := h (l :: pre) (List.cons_prefix_cons.2 ⟨rfl, hp⟩)
        rw [run_cons, hst] at ht
        exact ⟨t, ht, hP⟩

/-- **Exactness lifts from steps to runs**: if from a state with `P` a step succeeds and keeps
`P` exactly when `G` holds, then a run always has `P` exactly when all its steps meet `G`. -/
theorem always_iff_guarded {P : S → Prop} {G : S → L → Prop}
    (hstep : ∀ s l, P s → ((∃ s', step s l = some s' ∧ P s') ↔ G s l)) :
    ∀ (ls : List L) (s : S), P s → (Always step P ls s ↔ Guarded step G ls s) := by
  intro ls
  induction ls with
  | nil => intro s hs; exact ⟨fun _ => trivial, fun _ => hs⟩
  | cons l ls ih =>
    intro s hs
    constructor
    · rintro ⟨-, s', h1, h2⟩
      refine ⟨(hstep s l hs).1 ⟨s', h1, h2.here⟩, fun s'' h3 => ?_⟩
      rw [h1] at h3
      cases h3
      exact (ih s' h2.here).1 h2
    · rintro ⟨hg, hrest⟩
      obtain ⟨s', h1, hs'⟩ := (hstep s l hs).2 hg
      exact ⟨hs, s', h1, (ih s' hs').2 (hrest s' h1)⟩

/-- **The guarded invariant rule**: what every step that meets `G` keeps holds after each prefix of
a run all of whose steps meet `G`. -/
theorem forall_of_guarded {P : S → Prop} {G : S → L → Prop}
    (hstep : ∀ s l s', P s → G s l → step s l = some s' → P s') :
    ∀ (ls : List L) (s : S), P s → Guarded step G ls s →
      ∀ pre, pre <+: ls → ∀ u, run step pre s = some u → P u := by
  intro ls
  induction ls with
  | nil =>
    intro s hs _ pre hp u hu
    rw [List.prefix_nil.1 hp] at hu
    cases hu
    exact hs
  | cons l ls ih =>
    rintro s hs ⟨hg, hrest⟩ pre hp u hu
    cases pre with
    | nil => cases hu; exact hs
    | cons m pre =>
      obtain ⟨rfl, hp'⟩ := List.cons_prefix_cons.1 hp
      obtain ⟨s', h1, h2⟩ := run_cons_some hu
      exact ih s' (hstep s m s' hs hg h1) (hrest s' h1) pre hp' u h2

/-- The same for runs that may be partial functions of their labels: where a step that is taken
keeps `P` exactly when it meets `G`, a run that is taken has `P` after each of its prefixes exactly
when all its steps meet `G`.  `R` is an invariant of all steps. -/
theorem forall_iff_guarded {P R : S → Prop} {G : S → L → Prop}
    (hinv : ∀ s l s', R s → step s l = some s' → R s')
    (hstep : ∀ s l s', R s → P s → step s l = some s' → (P s' ↔ G s l)) :
    ∀ (ls : List L) (s t : S), R s → P s → run step ls s = some t →
      ((∀ pre, pre <+: ls → ∀ u, run step pre s = some u → P u) ↔ Guarded step G ls s) := by
  intro ls s t hr hs hrun
  constructor
  · induction ls generalizing s with
    | nil => exact fun _ => trivial
    | cons l ls ih =>
      intro h
      obtain ⟨s', h1, h2⟩ := run_cons_some hrun
      have hs' : P s' := h [l] (List.prefix_append [l] ls) s' (by rw [run_cons, h1]; rfl)
      refine ⟨(hstep s l s' hr hs h1).1 hs', fun s'' h3 => ?_⟩
      rw [h1] at h3
      cases h3
      refine ih s' (hinv s l s' hr h1) hs' h2 fun pre hp u hu => ?_
      exact h (l :: pre) (List.cons_prefix_cons.2 ⟨rfl, hp⟩) u (by rw [run_cons, h1]; exact hu)
  · intro hg pre hp u hu
    have hboth := forall_of_guarded (P := fun s => R s ∧ P s) (fun s l s' h hg h1 =>
      ⟨hinv s l s' h.1 h1, (hstep s l s' h.1 h.2 h1).2 hg⟩) ls s ⟨hr, hs⟩ hg pre hp u hu
    exact hboth.2

/-! ## Labels of a kind -/

/-- Some labels that are `own` lead from one state to the other. -/
def Leads (step : S → L → Option S) (own : L → Prop) (s t : S) : Prop :=
  ∃ ls : List L, (∀ l ∈ ls, own l) ∧ run step ls s = some t

variable {own : L → Prop} {s t u : S}

theorem Leads.refl (s : S) : Leads step own s s := ⟨[], by simp, rfl⟩

theorem Leads.single {l : L} (hl : own l) (h : step s l = some t) : Leads step own s t :=
  ⟨[l], by simpa using hl, by rw [run_cons, h]; rfl⟩

theorem Leads.trans (h : Leads step own s u) (h' : Leads step own u t) : Leads step own s t := by
  obtain ⟨ls, hls, hrun⟩ := h
  obtain ⟨ms, hms, hrun'⟩ := h'
  refine ⟨ls ++ ms, fun l hl => (List.mem_append.1 hl).elim (hls l) (hms l), ?_⟩
  rw [run_append, hrun]
  exact hrun'

end LabelledRun
