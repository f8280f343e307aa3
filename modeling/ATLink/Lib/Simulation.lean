import ATLink.Lib.Run

/-!
# Histories and simulations of runs

Beside the states of a run (`ATLink.Lib.Run`): what its steps put out, and how another system
answers them.

* `collect` — the outputs of the steps of a run, in order.
* `Simulation` — a relation between two systems under which each step of the first is answered by
  a run of the second, possibly an empty one.
* `Simulation.answers` — the labels of the answer to a whole run.

Principal results: `run_history` (the invariant rule for a property of the state and of what was
put out so far), `run_length_le` (steps that use up a potential make no longer run than it allows)
and `Simulation.run_answered` (a run is answered by a run).
-/

namespace LabelledRun

variable {S L O : Type} {step : S → L → Option S}

/-! ## Splitting a run -/

/-- A run through a label: up to it, the step, and the rest. -/
theorem run_split {pre post : List L} {l : L} {s t : S} (h : run step (pre ++ l :: post) s = some t) :
    ∃ u u', run step pre s = some u ∧ step u l = some u' ∧ run step post u' = some t := by
  rw [run_append] at h
  obtain ⟨u, hpre, hrest⟩ := Option.bind_eq_some_iff.1 h
  obtain ⟨u', hstep, hpost⟩ := run_cons_some hrest
  exact ⟨u, u', hpre, hstep, hpost⟩

theorem run_of_append {ls ms : List L} {s t : S} (h : run step (ls ++ ms) s = some t) :
    ∃ u, run step ls s = some u ∧ run step ms u = some t := by
  rw [run_append] at h
  exact Option.bind_eq_some_iff.1 h

theorem run_join {ls ms : List L} {s u t : S} (h : run step ls s = some u)
    (h' : run step ms u = some t) : run step (ls ++ ms) s = some t := by
  rw [run_append, h]
  exact h'

/-! ## Histories -/

/-- What the steps of a run put out, in order. -/
def collect (step : S → L → Option S) (out : S → L → S → List O) : List L → S → List O
  | [], _ => []
  | l :: ls, s =>
    match step s l with
    | none => []
    | some s' => out s l s' ++ collect step out ls s'

variable {out : S → L → S → List O}

theorem collect_cons {l : L} {s s' : S} (h : step s l = some s') (ls : List L) :
    collect step out (l :: ls) s = out s l s' ++ collect step out ls s' := by
  rw [collect, h]

theorem collect_append {ls : List L} {s u : S} (h : run step ls s = some u) (ms : List L) :
    collect step out (ls ++ ms) s = collect step out ls s ++ collect step out ms u := by
  induction ls generalizing s with
  | nil => cases h; rfl
  | cons l ls ih =>
    obtain ⟨s', h1, h2⟩ := run_cons_some h
    rw [List.cons_append, collect_cons h1, collect_cons h1, ih h2, List.append_assoc]

/-- **The invariant rule with history**: what every step keeps of the state and of the outputs so
far, every run keeps. -/
theorem run_history (out : S → L → S → List O) {P : S → List O → Prop}
    (hstep : ∀ s l s' h, P s h → step s l = some s' → P s' (h ++ out s l s')) :
    ∀ (ls : List L) (s t : S) (h : List O), P s h → run step ls s = some t →
      P t (h ++ collect step out ls s) := by
  intro ls
  induction ls with
  | nil =>
    intro s t h hs hrun
    cases hrun
    rw [collect, List.append_nil]
    exact hs
  | cons l ls ih =>
    intro s t h hs hrun
    obtain ⟨s', h1, h2⟩ := run_cons_some hrun
    rw [collect_cons h1, ← List.append_assoc]
    exact ih s' t _ (hstep s l s' h hs h1) h2

/-! ## Potentials -/

/-- **The length of a run**: where each step of one kind gives up some potential, a run of such
steps is no longer than the potential it starts with, and keeps what each of them keeps. -/
theorem run_length_le {R : S → Prop} (own : L → Prop) (potential : S → Nat)
    (hinv : ∀ s l s', R s → own l → step s l = some s' → R s')
    (hstep : ∀ s l s', R s → own l → step s l = some s' → potential s' < potential s) :
    ∀ (ls : List L) (s t : S), R s → (∀ l ∈ ls, own l) → run step ls s = some t →
      R t ∧ ls.length + potential t ≤ potential s := by
  intro ls
  induction ls with
  | nil =>
    intro s t hs _ hrun
    cases hrun
    exact ⟨hs, Nat.le_of_eq (Nat.zero_add _)⟩
  | cons l ls ih =>
    intro s t hs hown hrun
    obtain ⟨s', h1, h2⟩ := run_cons_some hrun
    have hl := hown l List.mem_cons_self
    have hpaid := hstep s l s' hs hl h1
    obtain ⟨ht, hrest⟩ :=
      ih s' t (hinv s l s' hs hl h1) (fun m hm => hown m (List.mem_cons_of_mem l hm)) h2
    rw [List.length_cons]
    exact ⟨ht, by omega⟩

/-! ## Simulations -/

variable {S' L' : Type} {step' : S' → L' → Option S'}

/-- Every step of the first system is answered by a run of the second one. -/
structure Simulation (step : S → L → Option S) (step' : S' → L' → Option S') where
  rel : S → S' → Prop
  answer : S → L → S → List L'
  answered : ∀ s a l s', rel s a → step s l = some s' →
    ∃ a', run step' (answer s l s') a = some a' ∧ rel s' a'

namespace Simulation

variable (sim : Simulation step step')

/-- The labels of the answer to a run. -/
def answers (ls : List L) (s : S) : List L' := collect step sim.answer ls s

/-- **A run is answered by a run.** -/
theorem run_answered {ls : List L} {s t : S} {a : S'} (hrel : sim.rel s a)
    (hrun : run step ls s = some t) :
    ∃ b, run step' (sim.answers ls s) a = some b ∧ sim.rel t b := by
  have hkeep := run_history sim.answer
    (P := fun u h => ∃ b, run step' h a = some b ∧ sim.rel u b)
    (fun u l u' h hu hstep => ?_) ls s t [] ⟨a, rfl, hrel⟩ hrun
  · exact hkeep
  · obtain ⟨b, hb, hub⟩ := hu
    obtain ⟨b', hb', hub'⟩ := sim.answered u b l u' hub hstep
    exact ⟨b', run_join hb hb', hub'⟩

end Simulation

end LabelledRun
