import Mathlib.Algebra.Order.BigOperators.Group.Finset
import ATLink.Lib.Monitor

/-!
# Wake-ups

Where the operations of a monitor (`ATLink.Lib.Monitor`) that notify put in what the others wait for
and take out.

* `Credited` — such an object, with the number of what is in it.
* `Heard` — while a thread sleeps there is no more in the object than the threads that are awake will
  take or hand on.
* `AtRest` — no thread can go on without a new call or a spurious wake-up.

Principal results: `step_heard` — every step keeps `Heard`; `rest_iff` — no wake-up is lost: where
no thread can go on, those in an operation sleep and their predicates do not hold; `run_rests` —
the threads rest within a number of steps that their number bounds.
-/

namespace SharedObject

open LabelledRun

variable {σ V Op ι : Type}

/-- The operations that notify put in what the others wait for and take out. -/
structure Object.Credited (obj : Object σ V Op) (credit : σ → Nat) : Prop where
  ready_iff : ∀ op x, obj.ready op x = true ↔ obj.signals op = true ∨ 0 < credit x
  adds : ∀ op x, obj.signals op = true → credit (obj.finish op 0 (x, obj.start)).1 ≤ credit x + 1
  uses : ∀ op x, obj.signals op = false → 0 < credit x →
    credit (obj.finish op 0 (x, obj.start)).1 < credit x

/-- The thread will take something out, or notify one that does. -/
def Phase.hope (obj : Object σ V Op) : Phase V Op → Nat
  | .entering op => if obj.signals op then 0 else 1
  | .inside op => if obj.signals op then 0 else 1
  | .running op _ _ => if obj.signals op then 1 else 0
  | .notifying _ _ => 1
  | _ => 0

namespace Monitor

section WakeUps

variable [DecidableEq ι] {obj : Object σ V Op} {credit : σ → Nat} {s s' : Monitor ι σ V Op}

/-- A thread that does not fall asleep adds no sleeper. -/
theorem asleep_of_move {i j : ι} {p : Phase V Op} (hp : p.isAsleep = false)
    (hj : ((s.move i p).phase j).isAsleep = true) : (s.phase j).isAsleep = true ∧ j ≠ i := by
  by_cases hji : j = i
  · subst hji
    rw [move_self, hp] at hj
    cases hj
  · rw [move_other hji] at hj
    exact ⟨hj, hji⟩

theorem sleepers_move {i : ι} {p : Phase V Op}
    (hs : ∀ i op, s.phase i = .asleep op → obj.signals op = false) (hp : p.isAsleep = false) :
    ∀ j op, (s.move i p).phase j = .asleep op → obj.signals op = false := by
  intro j op hj
  obtain ⟨-, hji⟩ := asleep_of_move hp (j := j) (by rw [hj]; rfl)
  rw [move_other hji] at hj
  exact hs j op hj

variable [Fintype ι]

/-- How a sum over the threads changes with one of them. -/
theorem sum_update {α : Type} (g : α → Nat) (f : ι → α) (i : ι) (x : α) :
    ∑ j, g (Function.update f i x j) + g (f i) = ∑ j, g (f j) + g x := by
  have hothers : ∑ j ∈ Finset.univ.erase i, g (Function.update f i x j) =
      ∑ j ∈ Finset.univ.erase i, g (f j) :=
    Finset.sum_congr rfl fun j hj => by rw [Function.update_of_ne (Finset.ne_of_mem_erase hj)]
  have hafter := Finset.add_sum_erase Finset.univ (fun j => g (Function.update f i x j)) (Finset.mem_univ i)
  have hbefore := Finset.add_sum_erase Finset.univ (fun j => g (f j)) (Finset.mem_univ i)
  simp only [Function.update_self, hothers] at hafter
  omega

theorem sum_move (g : Phase V Op → Nat) (s : Monitor ι σ V Op) (i : ι) (p : Phase V Op) :
    ∑ j, g ((s.move i p).phase j) + g (s.phase i) = ∑ j, g (s.phase j) + g p :=
  sum_update g s.phase i p

/-- Only takers sleep, and while any does there is no more in the object than the threads that are
awake will take or hand on. -/
structure Heard (obj : Object σ V Op) (credit : σ → Nat) (s : Monitor ι σ V Op) : Prop where
  exclusive : s.Exclusive
  sleepers : ∀ i op, s.phase i = .asleep op → obj.signals op = false
  hopes : (∀ i, (s.phase i).isAsleep = false) ∨
    credit (s.completed obj) ≤ ∑ i, (s.phase i).hope obj

omit [DecidableEq ι] in
theorem init_heard (x : σ) : (init x : Monitor ι σ V Op).Heard obj credit where
  exclusive := init_exclusive x
  sleepers := by
    intro i op hi
    cases hi
  hopes := .inl fun _ => rfl

/-- A thread that does not fall asleep and does with the object what was hoped for. -/
theorem Heard.moved {i : ι} {p : Phase V Op} (hs : s.Heard obj credit)
    (hphase : s'.phase = (s.move i p).phase) (hexclusive : s'.Exclusive) (hp : p.isAsleep = false)
    (hcredit : credit (s'.completed obj) + (s.phase i).hope obj ≤
      credit (s.completed obj) + p.hope obj) : s'.Heard obj credit := by
  have hsum := sum_move (Phase.hope obj) s i p
  refine ⟨hexclusive, ?_, ?_⟩
  · rw [hphase]
    exact sleepers_move hs.sleepers hp
  · rw [hphase]
    rcases hs.hopes with hnone | hle
    · left
      intro j
      by_contra hj
      have hasleep := asleep_of_move hp (j := j) (by simpa using hj)
      rw [hnone j] at hasleep
      cases hasleep.1
    · right
      omega

theorem step_heard {l : Move ι Op} (hobj : obj.Credited credit) (hs : s.Heard obj credit)
    (h : s.step obj l = some s') : s'.Heard obj credit := by
  have hexclusive := step_exclusive hs.exclusive h
  cases step_cases h with
  | @called i op hi =>
    refine hs.moved rfl hexclusive rfl ?_
    rw [completed_move hs.exclusive (by rw [hi]; rfl), hi]
    exact Nat.add_le_add_left (Nat.zero_le _) _
  | @locked i op hfree hi =>
    have hbefore : s.completed obj = s.object := by simp [completed, hfree]
    refine hs.moved (moveLocked_phase ..) hexclusive rfl ?_
    rw [completed_moveLocked, hbefore, hi]
    exact Nat.le_refl _
  | @admitted i op hi hready =>
    refine hs.moved (moveLocked_phase ..) hexclusive rfl ?_
    rw [completed_moveLocked, completed_of_locked hs.exclusive hi rfl, hi]
    show credit (obj.finish op 0 (s.object, obj.start)).1 + (if obj.signals op then 0 else 1) ≤
      credit s.object + (if obj.signals op then 1 else 0)
    cases hsignals : obj.signals op with
    | true => exact hobj.adds op _ hsignals
    | false =>
      have hpos := ((hobj.ready_iff op s.object).1 hready).resolve_left (by simp [hsignals])
      exact hobj.uses op _ hsignals hpos
  | @slept i op hi hready =>
    have hnone : ¬(obj.signals op = true ∨ 0 < credit s.object) := by
      rw [← hobj.ready_iff, hready]
      exact Bool.false_ne_true
    refine ⟨hexclusive, ?_, .inr ?_⟩
    · intro j op' hj
      rw [moveLocked_phase] at hj
      by_cases hji : j = i
      · subst hji
        rw [move_self] at hj
        cases hj
        simpa using fun hsignals => hnone (.inl hsignals)
      · rw [move_other hji] at hj
        exact hs.sleepers j op' hj
    · rw [completed_moveLocked]
      show credit s.object ≤ _
      omega
  | @executed i op pc v f hi hf =>
    refine hs.moved (moveLocked_phase ..) hexclusive rfl ?_
    rw [completed_moveLocked, completed_of_locked hs.exclusive hi rfl, hi, Phase.completed,
      Phase.completed, Object.finish_of_some hf]
    exact Nat.le_refl _
  | @unlocked i op pc v hi hend =>
    have hafter : ((if obj.signals op then .notifying op v else .outside : Phase V Op).isAsleep = false) ∧
        (if obj.signals op then .notifying op v else .outside : Phase V Op).completed obj s.object =
          s.object := by
      cases obj.signals op <;> exact ⟨rfl, rfl⟩
    refine hs.moved (moveLocked_phase ..) hexclusive hafter.1 ?_
    rw [completed_moveLocked, hafter.2, completed_of_locked hs.exclusive hi rfl, hi, Phase.completed,
      Object.finish_of_none hend]
    cases hsignals : obj.signals op <;> simp [Phase.hope, hsignals]
  | @woke i j op op' v hi hj =>
    have hji : j ≠ i := by
      rintro rfl
      rw [hi] at hj
      cases hj
    have htaker := hs.sleepers j op' hj
    have hj' : (s.move i .outside).phase j = .asleep op' := by rw [move_other hji, hj]
    have houtside := hs.exclusive.aside (i := i) (p := .outside) (by rw [hi]; rfl) rfl
    refine ⟨hexclusive, sleepers_move (sleepers_move hs.sleepers rfl) rfl, .inr ?_⟩
    -- the hope of the one that notifies passes to the one that is woken
    have hpassed : credit (s.completed obj) ≤ ∑ k, (s.phase k).hope obj := by
      refine hs.hopes.resolve_left fun hnone => ?_
      have hawake := hnone j
      rw [hj] at hawake
      cases hawake
    have hsum := sum_move (Phase.hope obj) s i .outside
    have hsum' := sum_move (Phase.hope obj) (s.move i .outside) j (.entering op')
    have hnotifier : (s.phase i).hope obj = 1 := by rw [hi]; rfl
    have hsleeper : ((s.move i .outside).phase j).hope obj = 0 := by rw [hj']; rfl
    have hwoken : (Phase.entering op' : Phase V Op).hope obj = 1 := by simp [Phase.hope, htaker]
    have hdone : (Phase.outside : Phase V Op).hope obj = 0 := rfl
    rw [completed_move houtside (by rw [hj']; rfl), completed_move hs.exclusive (by rw [hi]; rfl)]
    omega
  | @unheard i op v hi hnone =>
    refine ⟨hexclusive, sleepers_move hs.sleepers rfl, .inl ?_⟩
    intro j
    by_contra hj
    have hasleep := asleep_of_move (p := .outside) rfl (j := j) (by simpa using hj)
    rw [hnone j] at hasleep
    cases hasleep.1
  | @spurious i op hi =>
    refine hs.moved rfl hexclusive rfl ?_
    rw [completed_move hs.exclusive (by rw [hi]; rfl), hi]
    exact Nat.add_le_add_left (Nat.zero_le _) _

end WakeUps

/-! ## Rest -/

end Monitor

/-- Not a call that comes in, and no spurious wake-up. -/
def Move.isOwn : Move ι Op → Bool
  | .call _ _ => false
  | .spurious _ => false
  | _ => true

/-- The steps that an operation still takes, with those of the thread that it wakes.  `bound` is for
the bodies of the takers. -/
def Phase.weight (obj : Object σ V Op) (bound : Nat) : Phase V Op → Nat
  | .outside => 0
  | .asleep _ => 0
  | .entering op => (obj.body op).length + 3 + (if obj.signals op then bound + 4 else 0)
  | .inside op => (obj.body op).length + 2 + (if obj.signals op then bound + 4 else 0)
  | .running op pc _ => (obj.body op).length - pc + 1 + (if obj.signals op then bound + 4 else 0)
  | .notifying _ _ => bound + 4

theorem Phase.weight_le {obj : Object σ V Op} {bound : Nat} (hbound : ∀ op, (obj.body op).length ≤ bound)
    (p : Phase V Op) : p.weight obj bound ≤ 2 * bound + 7 := by
  have hnotify : ∀ op, (if obj.signals op then bound + 4 else 0) ≤ bound + 4 := by
    intro op
    split <;> omega
  cases p with
  | outside => exact Nat.zero_le _
  | asleep op => exact Nat.zero_le _
  | entering op =>
    have hlen := hbound op
    have hop := hnotify op
    simp only [weight]
    omega
  | inside op =>
    have hlen := hbound op
    have hop := hnotify op
    simp only [weight]
    omega
  | running op pc v =>
    have hlen := hbound op
    have hop := hnotify op
    simp only [weight]
    omega
  | notifying op v =>
    simp only [weight]
    omega

namespace Monitor

section Rest

variable [DecidableEq ι] [Fintype ι] {obj : Object σ V Op} {credit : σ → Nat} {s s' : Monitor ι σ V Op}

/-- No thread can go on. -/
def AtRest (obj : Object σ V Op) (s : Monitor ι σ V Op) : Prop :=
  ∀ l : Move ι Op, l.isOwn = true → s.step obj l = none

/-- The owner of the mutex can go on. -/
theorem AtRest.free (hs : s.Exclusive) (hrest : s.AtRest obj) : s.owner = none := by
  rw [Option.eq_none_iff_forall_ne_some]
  intro i hown
  have hlocked := (hs i).2 hown
  cases hi : s.phase i with
  | inside op =>
    have htest := hrest (.test i) rfl
    simp only [step, hi] at htest
    split at htest <;> cases htest
  | running op pc v =>
    have hexec := hrest (.exec i) rfl
    have hunlock := hrest (.unlock i) rfl
    simp [step, hi] at hexec hunlock
    omega
  | outside => simp [hi, Phase.locked] at hlocked
  | entering op => simp [hi, Phase.locked] at hlocked
  | asleep op => simp [hi, Phase.locked] at hlocked
  | notifying op v => simp [hi, Phase.locked] at hlocked

/-- With nobody in a critical section a thread can go on unless it sleeps. -/
theorem AtRest.sleeps (hs : s.Exclusive) (hrest : s.AtRest obj) (i : ι) :
    s.phase i = .outside ∨ ∃ op, s.phase i = .asleep op := by
  have hfree := hrest.free hs
  have hlocked := hs.free hfree (j := i)
  cases hi : s.phase i with
  | outside => exact .inl rfl
  | asleep op => exact .inr ⟨op, rfl⟩
  | entering op =>
    have hlock := hrest (.lock i) rfl
    simp [step, hfree, hi] at hlock
  | inside op => simp [hi, Phase.locked] at hlocked
  | running op pc v => simp [hi, Phase.locked] at hlocked
  | notifying op v =>
    by_cases hnone : ∀ j, (s.phase j).isAsleep = false
    · have hnotify := hrest (.notify i none) rfl
      simp [step, hi, hnone] at hnotify
    · obtain ⟨j, hj⟩ := not_forall.1 hnone
      have hnotify := hrest (.notify i (some j)) rfl
      cases hphase : s.phase j with
      | asleep op => simp [step, hi, hphase] at hnotify
      | _ => simp [hphase, Phase.isAsleep] at hj

/-- **No wake-up is lost**: where no thread can go on, those that are in an operation sleep, and
what they wait for is not there. -/
theorem rest_iff (hobj : obj.Credited credit) (hs : s.Heard obj credit) :
    s.AtRest obj ↔ ∀ i, s.phase i = .outside ∨
      ∃ op, s.phase i = .asleep op ∧ obj.ready op s.object = false := by
  constructor
  · intro hrest i
    have hsleeps := hrest.sleeps hs.exclusive
    rcases hsleeps i with hi | ⟨op, hi⟩
    · exact .inl hi
    · refine .inr ⟨op, hi, ?_⟩
      have hobject : s.completed obj = s.object := by simp [completed, hrest.free hs.exclusive]
      have hsum : ∑ j, (s.phase j).hope obj = 0 := by
        refine Finset.sum_eq_zero fun j _ => ?_
        rcases hsleeps j with hj | ⟨op', hj⟩ <;> (rw [hj]; rfl)
      have hcredit := hs.hopes.resolve_left fun hnone => by
        have hawake := hnone i
        rw [hi] at hawake
        cases hawake
      rw [Bool.eq_false_iff, Ne, hobj.ready_iff, hs.sleepers i op hi]
      rw [hobject, hsum] at hcredit
      simp
      omega
  · intro hall l hl
    have hnot : ∀ i, (∃ op, s.phase i = .entering op) ∨ (s.phase i).locked = true ∨
        (∃ op v, s.phase i = .notifying op v) → False := by
      intro i hi
      rcases hall i with h | ⟨op, h, -⟩ <;> simp [h, Phase.locked] at hi
    by_contra hsome
    obtain ⟨s', hstep⟩ := Option.ne_none_iff_exists'.1 hsome
    cases step_cases hstep with
    | called hi => cases hl
    | locked hfree hi => exact hnot _ (.inl ⟨_, hi⟩)
    | admitted hi hready => exact hnot _ (.inr (.inl (by rw [hi]; rfl)))
    | slept hi hready => exact hnot _ (.inr (.inl (by rw [hi]; rfl)))
    | executed hi hf => exact hnot _ (.inr (.inl (by rw [hi]; rfl)))
    | unlocked hi hend => exact hnot _ (.inr (.inl (by rw [hi]; rfl)))
    | woke hi hj => exact hnot _ (.inr (.inr ⟨_, _, hi⟩))
    | unheard hi hnone => exact hnot _ (.inr (.inr ⟨_, _, hi⟩))
    | spurious hi => cases hl

/-- A step that a thread makes by itself brings the threads closer to rest. -/
theorem weight_step {bound : Nat} {l : Move ι Op}
    (hbound : ∀ op, obj.signals op = false → (obj.body op).length ≤ bound)
    (hs : ∀ i op, s.phase i = .asleep op → obj.signals op = false) (hl : l.isOwn = true)
    (h : s.step obj l = some s') :
    ∑ i, (s'.phase i).weight obj bound < ∑ i, (s.phase i).weight obj bound := by
  have hlighter : ∀ {i : ι} {p q : Phase V Op}, s.phase i = q → p.weight obj bound < q.weight obj bound →
      ∑ j, ((s.move i p).phase j).weight obj bound < ∑ j, (s.phase j).weight obj bound := by
    rintro i p q rfl hlt
    have hsum := sum_move (Phase.weight obj bound) s i p
    omega
  cases step_cases h with
  | called hi => cases hl
  | @locked i op hfree hi =>
    refine hlighter hi ?_
    simp [Phase.weight]
  | @admitted i op hi hready =>
    refine hlighter hi ?_
    simp [Phase.weight]
  | @slept i op hi hready =>
    refine hlighter hi ?_
    simp [Phase.weight]
  | @executed i op pc v f hi hf =>
    have hlt := (List.getElem?_eq_some_iff.1 hf).1
    refine hlighter hi ?_
    simp [Phase.weight]
    omega
  | @unlocked i op pc v hi hend =>
    refine hlighter hi ?_
    cases hsignals : obj.signals op <;> simp [Phase.weight, hsignals]
  | @woke i j op op' v hi hj =>
    have hji : j ≠ i := by
      rintro rfl
      rw [hi] at hj
      cases hj
    have htaker := hs j op' hj
    have hlen := hbound op' htaker
    have hj' : (s.move i .outside).phase j = .asleep op' := by rw [move_other hji, hj]
    have hsum := sum_move (Phase.weight obj bound) s i .outside
    have hsum' := sum_move (Phase.weight obj bound) (s.move i .outside) j (.entering op')
    have hnotifier : (s.phase i).weight obj bound = bound + 4 := by rw [hi]; rfl
    have hsleeper : ((s.move i .outside).phase j).weight obj bound = 0 := by rw [hj']; rfl
    have hwoken : (Phase.entering op' : Phase V Op).weight obj bound = (obj.body op').length + 3 := by
      simp [Phase.weight, htaker]
    have hdone : (Phase.outside : Phase V Op).weight obj bound = 0 := rfl
    omega
  | @unheard i op v hi hnone =>
    refine hlighter hi ?_
    simp [Phase.weight]
  | spurious hi => cases hl

/-- The threads come to rest within a number of steps that their number bounds. -/
theorem run_rests {bound : Nat} {ls : List (Move ι Op)} (hobj : obj.Credited credit)
    (hbound : ∀ op, (obj.body op).length ≤ bound) (hs : s.Heard obj credit)
    (hown : ∀ l ∈ ls, l.isOwn = true) (hrun : run (step obj) ls s = some s') :
    ls.length ≤ Fintype.card ι * (2 * bound + 7) := by
  have hlength := (run_length_le (R := Heard obj credit) (·.isOwn = true)
    (fun s => ∑ i, (s.phase i).weight obj bound) (fun s l s' hs _ h => step_heard hobj hs h)
    (fun s l s' hs hl h => weight_step (fun op _ => hbound op) hs.sleepers hl h) ls s s' hs hown hrun).2
  have hsum : ∑ i, (s.phase i).weight obj bound ≤ Fintype.card ι * (2 * bound + 7) := by
    simpa using Finset.sum_le_card_nsmul Finset.univ (fun i => (s.phase i).weight obj bound) _
      fun i _ => Phase.weight_le hbound _
  omega

end Rest

end Monitor
end SharedObject
