import Mathlib.Data.Fintype.Basic
import ATLink.Lib.Simulation

/-!
# Monitors

A shared object behind one mutex and one condition variable.  An operation takes the mutex, waits
for its predicate, runs its body, releases the mutex and, if it is of the kind that does, notifies
one of the threads that sleep.

* `Object` — the predicates and the bodies of the operations.
* `Monitor`, `Move` — the threads, each somewhere in an operation, and what they do.  A body runs
  one instruction at a time, and the other threads may do anything in between.
* `Atomic`, `Occurrence` — the object with operations that take effect as a whole, and what is seen
  of them: calls, effects and returns.

Principal results: `step_cases` — everything a step can do; `step_exclusive` — the threads in a
critical section are the owner of the mutex; `linearization` — a monitor is answered by its atomic
object, in which every operation takes effect between its call and its return.
-/

namespace SharedObject

open LabelledRun

variable {σ V Op ι : Type}

/-- Operations on a state `σ`, with locals in `V`. -/
structure Object (σ V Op : Type) where
  ready : Op → σ → Bool
  start : V
  body : Op → List (σ × V → σ × V)
  signals : Op → Bool

namespace Object

variable (obj : Object σ V Op)

/-- What is left of a body, run to its end. -/
def finish (op : Op) (pc : Nat) (c : σ × V) : σ × V := ((obj.body op).drop pc).foldl (fun c f => f c) c

/-- An operation as a whole; `none` where it waits. -/
def perform (op : Op) (x : σ) : Option (σ × V) :=
  if obj.ready op x then some (obj.finish op 0 (x, obj.start)) else none

variable {obj}

theorem finish_of_some {op : Op} {pc : Nat} {f : σ × V → σ × V} (h : (obj.body op)[pc]? = some f)
    (c : σ × V) : obj.finish op pc c = obj.finish op (pc + 1) (f c) := by
  obtain ⟨hlt, hget⟩ := List.getElem?_eq_some_iff.1 h
  unfold finish
  rw [List.drop_eq_getElem_cons hlt, hget, List.foldl_cons]

theorem finish_of_none {op : Op} {pc : Nat} (h : (obj.body op)[pc]? = none) (c : σ × V) :
    obj.finish op pc c = c := by
  unfold finish
  rw [List.drop_eq_nil_of_le (List.getElem?_eq_none_iff.1 h), List.foldl_nil]

theorem perform_of_ready {op : Op} {x : σ} (h : obj.ready op x = true) :
    obj.perform op x = some (obj.finish op 0 (x, obj.start)) := by
  simp [perform, h]

end Object

/-! ## The threads -/

/-- Where a thread stands: outside, in front of the mutex, in front of the test, asleep, in the
body, or in front of `notify_one`. -/
inductive Phase (V Op : Type) where
  | outside
  | entering (op : Op)
  | inside (op : Op)
  | asleep (op : Op)
  | running (op : Op) (pc : Nat) (v : V)
  | notifying (op : Op) (v : V)

namespace Phase

/-- The thread has the mutex. -/
def locked : Phase V Op → Bool
  | .inside _ => true
  | .running _ _ _ => true
  | _ => false

def isAsleep : Phase V Op → Bool
  | .asleep _ => true
  | _ => false

end Phase

structure Monitor (ι σ V Op : Type) where
  object : σ
  owner : Option ι
  phase : ι → Phase V Op

/-- A step of a thread.  `notify_one` wakes a thread of the system's choice. -/
inductive Move (ι Op : Type) where
  | call (i : ι) (op : Op)
  | lock (i : ι)
  | test (i : ι)
  | exec (i : ι)
  | unlock (i : ι)
  | notify (i : ι) (woken : Option ι)
  | spurious (i : ι)

namespace Monitor

def init (x : σ) : Monitor ι σ V Op := ⟨x, none, fun _ => .outside⟩

section Steps

variable [DecidableEq ι]

def move (s : Monitor ι σ V Op) (i : ι) (p : Phase V Op) : Monitor ι σ V Op :=
  { s with phase := Function.update s.phase i p }

/-- A move with the mutex, which may change the object, and that gets, keeps or gives back the
mutex. -/
def moveLocked (s : Monitor ι σ V Op) (i : ι) (p : Phase V Op) (x : σ) : Monitor ι σ V Op :=
  ⟨x, if p.locked then some i else none, Function.update s.phase i p⟩

@[simp] theorem move_object (s : Monitor ι σ V Op) (i : ι) (p : Phase V Op) :
    (s.move i p).object = s.object := rfl

@[simp] theorem move_owner (s : Monitor ι σ V Op) (i : ι) (p : Phase V Op) :
    (s.move i p).owner = s.owner := rfl

@[simp] theorem move_self (s : Monitor ι σ V Op) (i : ι) (p : Phase V Op) :
    (s.move i p).phase i = p := Function.update_self ..

theorem move_other {i j : ι} (h : j ≠ i) (s : Monitor ι σ V Op) (p : Phase V Op) :
    (s.move i p).phase j = s.phase j := Function.update_of_ne h ..

@[simp] theorem moveLocked_object (s : Monitor ι σ V Op) (i : ι) (p : Phase V Op) (x : σ) :
    (s.moveLocked i p x).object = x := rfl

@[simp] theorem moveLocked_owner (s : Monitor ι σ V Op) (i : ι) (p : Phase V Op) (x : σ) :
    (s.moveLocked i p x).owner = if p.locked then some i else none := rfl

@[simp] theorem moveLocked_phase (s : Monitor ι σ V Op) (i : ι) (p : Phase V Op) (x : σ) :
    (s.moveLocked i p x).phase = (s.move i p).phase := rfl

variable [Fintype ι] (obj : Object σ V Op)

/-- A step; `none` where it cannot be taken.  The test that fails releases the mutex and sleeps at
once, and a notification goes unheard only where nobody sleeps. -/
def step (s : Monitor ι σ V Op) : Move ι Op → Option (Monitor ι σ V Op)
  | .call i op =>
    match s.phase i with
    | .outside => some (s.move i (.entering op))
    | _ => none
  | .lock i =>
    match s.owner, s.phase i with
    | none, .entering op => some (s.moveLocked i (.inside op) s.object)
    | _, _ => none
  | .test i =>
    match s.phase i with
    | .inside op =>
      if obj.ready op s.object then some (s.moveLocked i (.running op 0 obj.start) s.object)
      else some (s.moveLocked i (.asleep op) s.object)
    | _ => none
  | .exec i =>
    match s.phase i with
    | .running op pc v =>
      (obj.body op)[pc]?.map fun f =>
        s.moveLocked i (.running op (pc + 1) (f (s.object, v)).2) (f (s.object, v)).1
    | _ => none
  | .unlock i =>
    match s.phase i with
    | .running op pc v =>
      if (obj.body op).length ≤ pc then
        some (s.moveLocked i (if obj.signals op then .notifying op v else .outside) s.object)
      else none
    | _ => none
  | .notify i woken =>
    match s.phase i, woken with
    | .notifying _ _, some j =>
      match s.phase j with
      | .asleep op => some ((s.move i .outside).move j (.entering op))
      | _ => none
    | .notifying _ _, none =>
      if ∀ j, (s.phase j).isAsleep = false then some (s.move i .outside) else none
    | _, _ => none
  | .spurious i =>
    match s.phase i with
    | .asleep op => some (s.move i (.entering op))
    | _ => none

/-- **What a step does**, by its label. -/
inductive Stepped (s : Monitor ι σ V Op) : Move ι Op → Monitor ι σ V Op → Prop where
  | called {i : ι} {op : Op} : s.phase i = .outside → Stepped s (.call i op) (s.move i (.entering op))
  | locked {i : ι} {op : Op} : s.owner = none → s.phase i = .entering op →
      Stepped s (.lock i) (s.moveLocked i (.inside op) s.object)
  | admitted {i : ι} {op : Op} : s.phase i = .inside op → obj.ready op s.object = true →
      Stepped s (.test i) (s.moveLocked i (.running op 0 obj.start) s.object)
  | slept {i : ι} {op : Op} : s.phase i = .inside op → obj.ready op s.object = false →
      Stepped s (.test i) (s.moveLocked i (.asleep op) s.object)
  | executed {i : ι} {op : Op} {pc : Nat} {v : V} {f : σ × V → σ × V} :
      s.phase i = .running op pc v → (obj.body op)[pc]? = some f →
      Stepped s (.exec i) (s.moveLocked i (.running op (pc + 1) (f (s.object, v)).2) (f (s.object, v)).1)
  | unlocked {i : ι} {op : Op} {pc : Nat} {v : V} : s.phase i = .running op pc v →
      (obj.body op)[pc]? = none →
      Stepped s (.unlock i)
        (s.moveLocked i (if obj.signals op then .notifying op v else .outside) s.object)
  | woke {i j : ι} {op op' : Op} {v : V} : s.phase i = .notifying op v → s.phase j = .asleep op' →
      Stepped s (.notify i (some j)) ((s.move i .outside).move j (.entering op'))
  | unheard {i : ι} {op : Op} {v : V} : s.phase i = .notifying op v →
      (∀ j, (s.phase j).isAsleep = false) → Stepped s (.notify i none) (s.move i .outside)
  | spurious {i : ι} {op : Op} : s.phase i = .asleep op →
      Stepped s (.spurious i) (s.move i (.entering op))

variable {obj} {s s' : Monitor ι σ V Op}

theorem step_cases {l : Move ι Op} (h : s.step obj l = some s') : Stepped obj s l s' := by
  cases l with
  | call i op =>
    simp only [step] at h
    split at h
    · rename_i hi
      cases h
      exact .called hi
    · cases h
  | lock i =>
    simp only [step] at h
    split at h
    · rename_i hfree hi
      cases h
      exact .locked hfree hi
    · cases h
  | test i =>
    simp only [step] at h
    split at h
    · rename_i op hi
      split at h
      · rename_i hready
        cases h
        exact .admitted hi hready
      · rename_i hready
        cases h
        exact .slept hi (Bool.not_eq_true _ ▸ hready)
    · cases h
  | exec i =>
    simp only [step] at h
    split at h
    · rename_i hi
      obtain ⟨f, hf, rfl⟩ := Option.map_eq_some_iff.1 h
      exact .executed hi hf
    · cases h
  | unlock i =>
    simp only [step] at h
    split at h
    · rename_i hi
      split at h
      · rename_i hend
        cases h
        exact .unlocked hi (List.getElem?_eq_none_iff.2 hend)
      · cases h
    · cases h
  | notify i woken =>
    simp only [step] at h
    split at h
    · rename_i hi
      split at h
      · rename_i hj
        cases h
        exact .woke hi hj
      · cases h
    · rename_i hi
      split at h
      · rename_i hnone
        cases h
        exact .unheard hi hnone
      · cases h
    · cases h
  | spurious i =>
    simp only [step] at h
    split at h
    · rename_i hi
      cases h
      exact .spurious hi
    · cases h

end Steps

/-! ## Mutual exclusion -/

section Exclusive

variable {s : Monitor ι σ V Op}

/-- The threads in a critical section are the owner of the mutex. -/
def Exclusive (s : Monitor ι σ V Op) : Prop := ∀ i, (s.phase i).locked = true ↔ s.owner = some i

theorem init_exclusive (x : σ) : (init x : Monitor ι σ V Op).Exclusive := by
  intro i
  simp [init, Phase.locked]

/-- The others do not have the mutex. -/
theorem Exclusive.other {i j : ι} (hs : s.Exclusive) (hi : (s.phase i).locked = true) (hj : j ≠ i) :
    (s.phase j).locked = false := by
  have hown := (hs i).1 hi
  rw [Bool.eq_false_iff]
  intro hlocked
  rw [hs j, hown] at hlocked
  exact hj (Option.some.inj hlocked).symm

theorem Exclusive.free {j : ι} (hs : s.Exclusive) (hfree : s.owner = none) :
    (s.phase j).locked = false := by
  rw [Bool.eq_false_iff]
  intro hlocked
  rw [hs j, hfree] at hlocked
  cases hlocked

/-- A thread with the mutex, or one that finds it free, is alone. -/
theorem Exclusive.alone {i : ι} (hs : s.Exclusive) (hi : (s.phase i).locked = true ∨ s.owner = none) :
    ∀ j, j ≠ i → (s.phase j).locked = false := by
  intro j hj
  rcases hi with hi | hfree
  · exact hs.other hi hj
  · exact hs.free hfree

variable [DecidableEq ι]

/-- A thread that neither has the mutex nor gets it leaves it with its owner. -/
theorem Exclusive.aside {i : ι} {p : Phase V Op} (hs : s.Exclusive) (hi : (s.phase i).locked = false)
    (hp : p.locked = false) : (s.move i p).Exclusive := by
  intro j
  by_cases hj : j = i
  · subst hj
    rw [move_self, move_owner, ← hs j, hi, hp]
  · rw [move_other hj, move_owner, hs j]

/-- A move with the mutex leaves it with the thread that moves, or with nobody. -/
theorem Exclusive.moveLocked {i : ι} (hothers : ∀ j, j ≠ i → (s.phase j).locked = false)
    (p : Phase V Op) (x : σ) : (s.moveLocked i p x).Exclusive := by
  intro j
  rw [moveLocked_phase, moveLocked_owner]
  by_cases hj : j = i
  · subst hj
    rw [move_self]
    cases p.locked <;> simp
  · rw [move_other hj, hothers j hj]
    cases p.locked
    · simp
    · simp [Ne.symm hj]

end Exclusive

section Linearization

variable [DecidableEq ι] [Fintype ι] {obj : Object σ V Op} {s s' : Monitor ι σ V Op}

theorem step_exclusive {l : Move ι Op} (hs : s.Exclusive) (h : s.step obj l = some s') :
    s'.Exclusive := by
  cases step_cases h with
  | called hi => exact hs.aside (by rw [hi]; rfl) rfl
  | locked hfree hi => exact .moveLocked (hs.alone (.inr hfree)) _ _
  | admitted hi hready => exact .moveLocked (hs.alone (.inl (by rw [hi]; rfl))) _ _
  | slept hi hready => exact .moveLocked (hs.alone (.inl (by rw [hi]; rfl))) _ _
  | executed hi hf => exact .moveLocked (hs.alone (.inl (by rw [hi]; rfl))) _ _
  | unlocked hi hend => exact .moveLocked (hs.alone (.inl (by rw [hi]; rfl))) _ _
  | @woke i j op op' v hi hj =>
    have hji : j ≠ i := by
      rintro rfl
      rw [hi] at hj
      cases hj
    have houtside := hs.aside (i := i) (p := .outside) (by rw [hi]; rfl) rfl
    exact houtside.aside (by rw [move_other hji, hj]; rfl) rfl
  | unheard hi hnone => exact hs.aside (by rw [hi]; rfl) rfl
  | spurious hi => exact hs.aside (by rw [hi]; rfl) rfl

end Linearization

end Monitor

/-! ## Linearization -/

/-- How far the operation of a thread has come. -/
inductive Stage (V Op : Type) where
  | outside
  | called (op : Op)
  | took (op : Op) (v : V)

/-- The object whose operations take effect as a whole. -/
structure Atomic (ι σ V Op : Type) where
  object : σ
  stage : ι → Stage V Op

/-- An operation is called, takes effect with its result, and returns it. -/
inductive Occurrence (ι V Op : Type) where
  | called (i : ι) (op : Op)
  | took (i : ι) (op : Op) (v : V)
  | returned (i : ι) (op : Op) (v : V)

namespace Atomic

def init (x : σ) : Atomic ι σ V Op := ⟨x, fun _ => .outside⟩

variable [DecidableEq ι]

def enter (a : Atomic ι σ V Op) (i : ι) (st : Stage V Op) : Atomic ι σ V Op :=
  { a with stage := Function.update a.stage i st }

@[simp] theorem enter_self (a : Atomic ι σ V Op) (i : ι) (st : Stage V Op) :
    (a.enter i st).stage i = st := Function.update_self ..

theorem enter_other {i j : ι} (h : j ≠ i) (a : Atomic ι σ V Op) (st : Stage V Op) :
    (a.enter i st).stage j = a.stage j := Function.update_of_ne h ..

open Classical in
/-- An operation takes effect where its predicate holds, once, between its call and its return. -/
noncomputable def step (obj : Object σ V Op) (a : Atomic ι σ V Op) :
    Occurrence ι V Op → Option (Atomic ι σ V Op)
  | .called i op => if a.stage i = .outside then some (a.enter i (.called op)) else none
  | .took i op v =>
    if a.stage i = .called op ∧ (obj.perform op a.object).map (·.2) = some v then
      (obj.perform op a.object).map fun r => { a.enter i (.took op v) with object := r.1 }
    else none
  | .returned i op v => if a.stage i = .took op v then some (a.enter i .outside) else none

variable {obj : Object σ V Op} {a : Atomic ι σ V Op} {i : ι} {op : Op}

theorem step_called (h : a.stage i = .outside) :
    a.step obj (.called i op) = some (a.enter i (.called op)) := if_pos h

theorem step_took {x : σ} {v : V} (h : a.stage i = .called op)
    (hperform : obj.perform op a.object = some (x, v)) :
    a.step obj (.took i op v) = some { a.enter i (.took op v) with object := x } := by
  simp [step, h, hperform]

theorem step_returned {v : V} (h : a.stage i = .took op v) :
    a.step obj (.returned i op v) = some (a.enter i .outside) := if_pos h

/-- **What the atomic object does**, by what is seen of it. -/
inductive Stepped (obj : Object σ V Op) (a : Atomic ι σ V Op) :
    Occurrence ι V Op → Atomic ι σ V Op → Prop where
  | called {i : ι} {op : Op} : a.stage i = .outside →
      Stepped obj a (.called i op) (a.enter i (.called op))
  | took {i : ι} {op : Op} {x : σ} {v : V} : a.stage i = .called op →
      obj.perform op a.object = some (x, v) →
      Stepped obj a (.took i op v) { a.enter i (.took op v) with object := x }
  | returned {i : ι} {op : Op} {v : V} : a.stage i = .took op v →
      Stepped obj a (.returned i op v) (a.enter i .outside)

theorem step_cases {o : Occurrence ι V Op} {b : Atomic ι σ V Op} (h : a.step obj o = some b) :
    Stepped obj a o b := by
  cases o with
  | called i op =>
    simp only [step] at h
    split at h
    · rename_i hi
      cases h
      exact .called hi
    · cases h
  | took i op v =>
    simp only [step] at h
    split at h
    · rename_i hi
      obtain ⟨⟨x, w⟩, hperform, rfl⟩ := Option.map_eq_some_iff.1 h
      have hv : w = v := by simpa [hperform] using hi.2
      subst hv
      exact .took hi.1 hperform
    · cases h
  | returned i op v =>
    simp only [step] at h
    split at h
    · rename_i hi
      cases h
      exact .returned hi
    · cases h

end Atomic

/-- The stage that a phase has reached.  With the test passed the operation has taken effect; its
result is what the rest of the body comes to. -/
def Phase.stage (obj : Object σ V Op) (x : σ) : Phase V Op → Stage V Op
  | .outside => .outside
  | .entering op => .called op
  | .inside op => .called op
  | .asleep op => .called op
  | .running op pc v => .took op (obj.finish op pc (x, v)).2
  | .notifying op v => .took op v

/-- The object as the thread that has the mutex leaves it. -/
def Phase.completed (obj : Object σ V Op) (x : σ) : Phase V Op → σ
  | .running op pc v => (obj.finish op pc (x, v)).1
  | _ => x

namespace Monitor

section Linearization

variable (obj : Object σ V Op)

def completed (s : Monitor ι σ V Op) : σ :=
  match s.owner with
  | none => s.object
  | some i => (s.phase i).completed obj s.object

def atomic (s : Monitor ι σ V Op) : Atomic ι σ V Op :=
  ⟨s.completed obj, fun i => (s.phase i).stage obj s.object⟩

/-- What is seen of a step. -/
def occurrences (s : Monitor ι σ V Op) (l : Move ι Op) (_ : Monitor ι σ V Op) :
    List (Occurrence ι V Op) :=
  match l with
  | .call i op => [.called i op]
  | .test i =>
    match s.phase i with
    | .inside op => ((obj.perform op s.object).map fun r => .took i op r.2).toList
    | _ => []
  | .unlock i =>
    match s.phase i with
    | .running op _ v => if obj.signals op then [] else [.returned i op v]
    | _ => []
  | .notify i _ =>
    match s.phase i with
    | .notifying op v => [.returned i op v]
    | _ => []
  | _ => []

variable {obj} [DecidableEq ι] {s s' : Monitor ι σ V Op}

/-- Without the mutex the stage does not depend on the object. -/
theorem stage_of_not_locked {p : Phase V Op} (h : p.locked = false) (x y : σ) :
    p.stage obj x = p.stage obj y := by
  cases p with
  | running op pc v => cases h
  | _ => rfl

theorem completed_move {i : ι} (hs : s.Exclusive) (hi : (s.phase i).locked = false) (p : Phase V Op) :
    (s.move i p).completed obj = s.completed obj := by
  unfold completed
  rw [move_owner]
  cases hown : s.owner with
  | none => rfl
  | some j =>
    have hji : j ≠ i := by
      rintro rfl
      rw [← hs j, hi] at hown
      cases hown
    simp [move_other hji]

theorem completed_moveLocked (i : ι) (p : Phase V Op) (x : σ) :
    (s.moveLocked i p x).completed obj = p.completed obj x := by
  unfold completed
  rw [moveLocked_owner]
  cases hp : p.locked with
  | true => simp
  | false =>
    cases p with
    | inside op => cases hp
    | running op pc v => cases hp
    | _ => rfl

/-- A thread that moves without the mutex changes its own stage only. -/
theorem atomic_move {i : ι} (hs : s.Exclusive) (hi : (s.phase i).locked = false) (p : Phase V Op) :
    (s.move i p).atomic obj = (s.atomic obj).enter i (p.stage obj s.object) := by
  have hstage : ((s.move i p).atomic obj).stage =
      Function.update (s.atomic obj).stage i (p.stage obj s.object) := by
    funext j
    by_cases hj : j = i
    · subst hj
      simp [atomic]
    · simp [atomic, move_other hj, hj]
  exact congrArg₂ Atomic.mk (completed_move hs hi p) hstage

/-- A thread that moves with the mutex changes its own stage, and the object. -/
theorem atomic_moveLocked {i : ι} (hothers : ∀ j, j ≠ i → (s.phase j).locked = false)
    (p : Phase V Op) (x : σ) :
    (s.moveLocked i p x).atomic obj =
      { (s.atomic obj).enter i (p.stage obj x) with object := p.completed obj x } := by
  have hstage : ((s.moveLocked i p x).atomic obj).stage =
      Function.update (s.atomic obj).stage i (p.stage obj x) := by
    funext j
    by_cases hj : j = i
    · subst hj
      simp [atomic]
    · have hsame : (s.phase j).stage obj x = (s.phase j).stage obj s.object :=
        stage_of_not_locked (hothers j hj) x s.object
      simp [atomic, move_other hj, hj, hsame]
  exact congrArg₂ Atomic.mk (completed_moveLocked i p x) hstage

/-- A move that changes neither the object nor the stage of its thread. -/
theorem atomic_self {i : ι} {x : σ} {st : Stage V Op} (hobject : s.completed obj = x)
    (hstage : (s.phase i).stage obj s.object = st) :
    { (s.atomic obj).enter i st with object := x } = s.atomic obj := by
  subst hobject hstage
  exact congrArg (Atomic.mk _) (Function.update_eq_self i _)

omit [DecidableEq ι] in
theorem completed_of_locked {i : ι} {p : Phase V Op} (hs : s.Exclusive) (hi : s.phase i = p)
    (hp : p.locked = true) : s.completed obj = p.completed obj s.object := by
  subst hi
  simp [completed, (hs i).1 hp]

/-- **Linearization**: every step of a monitor is, for the atomic object, what is seen of it. -/
theorem step_linearizes [Fintype ι] {l : Move ι Op} (hs : s.Exclusive) (h : s.step obj l = some s') :
    run (Atomic.step obj) (s.occurrences obj l s') (s.atomic obj) = some (s'.atomic obj) := by
  cases step_cases h with
  | @called i op hi =>
    have hstage : (s.atomic obj).stage i = .outside := by simp [atomic, hi, Phase.stage]
    rw [atomic_move hs (by rw [hi]; rfl)]
    show ((s.atomic obj).step obj (.called i op)).bind some = _
    rw [Atomic.step_called hstage]
    rfl
  | @locked i op hfree hi =>
    rw [atomic_moveLocked (hs.alone (.inr hfree))]
    refine congrArg some (atomic_self ?_ ?_).symm
    · simp [completed, hfree, Phase.completed]
    · simp [hi, Phase.stage]
  | @admitted i op hi hready =>
    have hstage : (s.atomic obj).stage i = .called op := by simp [atomic, hi, Phase.stage]
    have hperform : obj.perform op (s.atomic obj).object =
        some (obj.finish op 0 (s.object, obj.start)) := by
      rw [show (s.atomic obj).object = s.object from completed_of_locked hs hi rfl]
      exact Object.perform_of_ready hready
    have hseen : s.occurrences obj (.test i) (s.moveLocked i (.running op 0 obj.start) s.object) =
        [.took i op (obj.finish op 0 (s.object, obj.start)).2] := by
      simp [occurrences, hi, Object.perform_of_ready hready]
    have htook : (s.atomic obj).step obj (.took i op (obj.finish op 0 (s.object, obj.start)).2) = _ :=
      Atomic.step_took hstage hperform
    rw [hseen, atomic_moveLocked (hs.alone (.inl (by rw [hi]; rfl))), run_cons, htook]
    rfl
  | @slept i op hi hready =>
    have hseen : s.occurrences obj (.test i) (s.moveLocked i (.asleep op) s.object) = [] := by
      simp [occurrences, hi, Object.perform, hready]
    rw [hseen, atomic_moveLocked (hs.alone (.inl (by rw [hi]; rfl)))]
    refine congrArg some (atomic_self (completed_of_locked hs hi rfl) ?_).symm
    simp [hi, Phase.stage]
  | @executed i op pc v f hi hf =>
    rw [atomic_moveLocked (hs.alone (.inl (by rw [hi]; rfl)))]
    refine congrArg some (atomic_self ?_ ?_).symm
    · rw [completed_of_locked hs hi rfl, Phase.completed, Phase.completed, Object.finish_of_some hf]
    · rw [hi, Phase.stage, Phase.stage, Object.finish_of_some hf (s.object, v)]
  | @unlocked i op pc v hi hend =>
    have hdone : s.completed obj = s.object := by
      rw [completed_of_locked hs hi rfl, Phase.completed, Object.finish_of_none hend]
    have hstage : (s.phase i).stage obj s.object = .took op v := by
      rw [hi, Phase.stage, Object.finish_of_none hend]
    rw [atomic_moveLocked (hs.alone (.inl (by rw [hi]; rfl)))]
    cases hsignals : obj.signals op with
    | true =>
      have hseen : ∀ t, s.occurrences obj (.unlock i) t = [] := by
        intro t
        simp [occurrences, hi, hsignals]
      rw [hseen]
      exact congrArg some (atomic_self hdone hstage).symm
    | false =>
      have hseen : ∀ t, s.occurrences obj (.unlock i) t = [.returned i op v] := by
        intro t
        simp [occurrences, hi, hsignals]
      rw [hseen, run_cons, Atomic.step_returned hstage]
      exact congrArg some (congrArg₂ Atomic.mk hdone rfl)
  | @woke i j op op' v hi hj =>
    have hji : j ≠ i := by
      rintro rfl
      rw [hi] at hj
      cases hj
    have hstage : (s.atomic obj).stage i = .took op v := by simp [atomic, hi, Phase.stage]
    have hj' : (s.move i .outside).phase j = .asleep op' := by rw [move_other hji, hj]
    have houtside := hs.aside (i := i) (p := .outside) (by rw [hi]; rfl) rfl
    have hseen : ∀ t, s.occurrences obj (.notify i (some j)) t = [.returned i op v] := by
      intro t
      simp [occurrences, hi]
    have hsleeper : ((s.move i .outside).move j (.entering op')).atomic obj =
        (s.move i .outside).atomic obj := by
      rw [atomic_move houtside (by rw [hj']; rfl)]
      exact atomic_self rfl (by simp [hj', Phase.stage])
    rw [hseen, hsleeper, atomic_move hs (by rw [hi]; rfl), run_cons, Atomic.step_returned hstage]
    rfl
  | @unheard i op v hi hnone =>
    have hstage : (s.atomic obj).stage i = .took op v := by simp [atomic, hi, Phase.stage]
    have hseen : s.occurrences obj (.notify i none) (s.move i .outside) = [.returned i op v] := by
      simp [occurrences, hi]
    rw [hseen, atomic_move hs (by rw [hi]; rfl), run_cons, Atomic.step_returned hstage]
    rfl
  | @spurious i op hi =>
    rw [atomic_move hs (by rw [hi]; rfl)]
    refine congrArg some (atomic_self rfl ?_).symm
    simp [hi, Phase.stage]

/-- Of a step that is not a call at most the effect or the return of an operation is seen. -/
theorem occurrences_cases [Fintype ι] {l : Move ι Op} (hl : ∀ i op, l ≠ .call i op)
    (h : s.step obj l = some s') :
    s.occurrences obj l s' = [] ∨ ∃ i op v, s.occurrences obj l s' = [.took i op v] ∨
      s.occurrences obj l s' = [.returned i op v] := by
  cases step_cases h with
  | called hi => exact absurd rfl (hl _ _)
  | locked hfree hi => exact .inl rfl
  | @admitted i op hi hready =>
    exact .inr ⟨i, op, _, .inl (by simp [occurrences, hi, Object.perform_of_ready hready]; rfl)⟩
  | slept hi hready => exact .inl (by simp [occurrences, hi, Object.perform, hready])
  | executed hi hf => exact .inl rfl
  | @unlocked i op pc v hi hend =>
    cases hsignals : obj.signals op with
    | true => exact .inl (by simp [occurrences, hi, hsignals])
    | false => exact .inr ⟨i, op, v, .inr (by simp [occurrences, hi, hsignals])⟩
  | @woke i j op op' v hi hj => exact .inr ⟨i, op, v, .inr (by simp [occurrences, hi])⟩
  | @unheard i op v hi hnone => exact .inr ⟨i, op, v, .inr (by simp [occurrences, hi])⟩
  | spurious hi => exact .inl rfl

/-- A monitor is answered by its atomic object. -/
def linearization [Fintype ι] (obj : Object σ V Op) :
    Simulation (step obj : Monitor ι σ V Op → Move ι Op → _)
      (Atomic.step obj : Atomic ι σ V Op → Occurrence ι V Op → _) where
  rel s a := s.Exclusive ∧ a = s.atomic obj
  answer := occurrences obj
  answered s a l s' hs h := by
    obtain ⟨hs, rfl⟩ := hs
    exact ⟨_, step_linearizes hs h, step_exclusive hs h, rfl⟩

end Linearization

end Monitor

end SharedObject
