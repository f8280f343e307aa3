import ATLink.Quiescence
import ATLink.Threads

/-!
# Rest, thread by thread

Where the threads of `ATLink.Threads` stop by themselves, with the queue made of a mutex and a
condition variable.

* `AtRest` — no step can be taken that is not made from outside.
* `potential` — what the orchestrator still has to do, and the steps of the threads inside the queue.

Principal result: `threads_come_to_rest` — the threads come to rest, and only where the orchestrator
of `ATLink.Quiescence` does.
-/

namespace ATLink

open LabelledRun MessageQueue
open SharedObject (Monitor Move)

section Threads

variable {P κ π ρ δ : Type} [DecidableEq P] [Fintype P] {I : Interfaces κ π ρ δ}

/-- The call that comes in. -/
def called : Answers ⊕ Step κ π ρ → Option Nat
  | .inr (.call c _ _ _ _) => some c
  | _ => none

def ThreadStep.called? (l : ThreadStep P κ π ρ) : Option Nat := l.machine?.bind called

omit [DecidableEq P] [Fintype P] in
theorem filterMap_called {ls : List (Activity κ π ρ)} {ms : List (ThreadStep P κ π ρ)}
    (h : ls.filterMap Activity.machine? = ms.filterMap ThreadStep.machine?) :
    ls.filterMap Activity.called? = ms.filterMap ThreadStep.called? := by
  have hfactor : (Activity.called? : Activity κ π ρ → Option Nat) = fun l => l.machine?.bind called := by
    funext l
    cases l with
    | caller m => cases m <;> rfl
    | _ => rfl
  have hmap := congrArg (List.filterMap called) h
  rw [List.filterMap_filterMap, List.filterMap_filterMap] at hmap
  rw [hfactor]
  exact hmap

/-- Not a step of a thread that posts or of a caller that comes in, and no spurious wake-up. -/
def ThreadStep.isOwn : ThreadStep P κ π ρ → Bool
  | .notify _ _ => false
  | .shutDown _ => false
  | .coolDown _ _ => true
  | .get => true
  | .queue l => l.isOwn
  | .handle _ => true
  | .caller l => (Activity.caller l : Activity κ π ρ).isOwn

namespace Threads

variable {s s' t : Threads P κ π ρ δ}

variable (I) in
/-- No step that is not made from outside can be taken. -/
def AtRest (s : Threads P κ π ρ δ) : Prop :=
  ∀ l : ThreadStep P κ π ρ, l.isOwn = true → s.step I l = none

theorem step_queue {l : Move (Option P) (Operation Event)} (hl : ∀ i op, l ≠ .call i op) :
    s.step I (.queue l) = (s.events.step code l).map fun m =>
      { s with events := m, loop := (s.events.occurrences code l m).foldl Loop.after s.loop } := by
  cases l with
  | call i op => exact absurd rfl (hl i op)
  | _ => rfl

theorem AtRest.queue (hrest : s.AtRest I) : s.events.AtRest code := by
  intro l hl
  have hcall : ∀ i op, l ≠ .call i op := by
    rintro i op rfl
    cases hl
  have hnone := hrest (.queue l) hl
  rw [step_queue hcall] at hnone
  exact Option.map_eq_none_iff.1 hnone

/-- At rest a thread that posts is outside, and the loop waits for an event if it has none. -/
theorem AtRest.phases (hs : s.Sound) (hrest : s.AtRest I) :
    (∀ p, s.events.phase (some p) = .outside) ∧
      s.events.phase none = if s.loop = .getting then .asleep .get else .outside := by
  have hwaits := (Monitor.rest_iff code_credited hs.heard).1 hrest.queue
  have hfits : ∀ i, Fits s.loop i ((s.events.phase i).stage code s.events.object) := hs.serves
  constructor
  · intro p
    rcases hwaits (some p) with hp | ⟨op, hp, hready⟩
    · exact hp
    · have hput := hfits (some p)
      rw [hp] at hput
      cases hput with
      | posting hop => rcases hop with rfl | rfl <;> cases hready
  · rcases hwaits none with hloop | ⟨op, hloop, -⟩
    · have hget : s.loop ≠ .getting := by
        intro he
        have hnone := hrest .get rfl
        simp [step, he, call, Monitor.step, hloop] at hnone
      rw [if_neg hget, hloop]
    · have hget := hfits none
      rw [hloop] at hget
      cases hget with
      | getting he => rw [if_pos he, hloop]

omit [DecidableEq P] in
/-- With the threads so the orchestrator is what they leave. -/
theorem orchestrator_of_phases (hs : s.Sound) (hposters : ∀ p, s.events.phase (some p) = .outside)
    (hloop : s.events.phase none = if s.loop = .getting then .asleep .get else .outside) :
    s.orchestrator = ⟨s.system, s.events.object, s.coolDown, s.loop⟩ := by
  have hunlocked : ∀ i, (s.events.phase i).locked = false := by
    intro i
    cases i with
    | none =>
      rw [hloop]
      split <;> rfl
    | some p => rw [hposters p]; rfl
  have hobject : s.events.completed code = s.events.object := by
    unfold Monitor.completed
    cases hown : s.events.owner with
    | none => rfl
    | some i =>
      have hlocked := (hs.exclusive i).2 hown
      rw [hunlocked i] at hlocked
      cases hlocked
  have hstage : ∀ ev, (s.events.atomic code).stage none ≠ .took .get (some ev) := by
    intro ev
    show (s.events.phase none).stage code s.events.object ≠ _
    rw [hloop]
    split <;> simp [SharedObject.Phase.stage]
  refine congrArg₂ (Orchestrator.mk s.system · s.coolDown ·) hobject ?_
  split
  · rename_i ev htook
    exact absurd htook (hstage ev)
  · rfl

/-- **Where the threads rest**: where the orchestrator does and nobody is inside the queue, but for
the loop where it sleeps in `get`. -/
theorem rest_iff (hs : s.Sound) :
    s.AtRest I ↔ s.orchestrator.AtRest I ∧ (∀ p, s.events.phase (some p) = .outside) ∧
      s.events.phase none = if s.loop = .getting then .asleep .get else .outside := by
  constructor
  · intro hrest
    obtain ⟨hposters, hloop⟩ := hrest.phases hs
    have hview := orchestrator_of_phases hs hposters hloop
    have hwaits := (Monitor.rest_iff code_credited hs.heard).1 hrest.queue none
    have hempty : s.loop = .getting → s.events.object.queue = [] := by
      intro hgetting
      rw [if_pos hgetting] at hloop
      rcases hwaits with houtside | ⟨op, hasleep, hready⟩
      · rw [hloop] at houtside
        cases houtside
      · rw [hloop] at hasleep
        cases hasleep
        simpa [code] using hready
    refine ⟨fun l hl => ?_, hposters, hloop⟩
    by_contra hsome
    obtain ⟨o, ho⟩ := Option.ne_none_iff_exists'.1 hsome
    have hundeferred := hs.undeferred
    rw [hview] at ho hundeferred
    cases Orchestrator.step_cases ho with
    | notify => cases hl
    | shutDown => cases hl
    | coolDown hl' ht => exact absurd ht (Orchestrator.no_worker_step hundeferred.worker hl')
    | taken hgetting hq =>
      have hnil : s.events.object.queue = [] := hempty hgetting
      rw [show s.events.object.queue = _ from hq] at hnil
      cases hnil
    | stopped hgetting hq =>
      have hnil : s.events.object.queue = [] := hempty hgetting
      rw [show s.events.object.queue = _ from hq] at hnil
      cases hnil
    | @handle ev a sys hloop' hsys =>
      have hnone := hrest (.handle a) rfl
      have hloop'' : s.loop = .handling ev := hloop'
      have hsys' : s.system.handle I ev a = some sys := hsys
      simp [step, hloop'', hsys'] at hnone
    | @caller l sys hpermits hsys =>
      have hnone := hrest (.caller l) hl
      have hpermits' : s.orchestrator.permits l = true := by rw [hview]; exact hpermits
      have hsys' : s.system.step I l = some sys := hsys
      simp [step, hpermits', hsys'] at hnone
  · rintro ⟨hrest, hposters, hloop⟩ l hl
    have hview := orchestrator_of_phases hs hposters hloop
    have hqueue : s.events.AtRest code := by
      rw [Monitor.rest_iff code_credited hs.heard]
      intro i
      cases i with
      | some p => exact .inl (hposters p)
      | none =>
        rw [hloop]
        split
        · rename_i hgetting
          refine .inr ⟨.get, rfl, ?_⟩
          by_contra hready
          have hne : s.events.object.queue ≠ [] := by simpa [code] using hready
          have henabled := Orchestrator.get_enabled (I := I) (s := s.orchestrator)
            (by rw [hview]; exact hgetting) (by rw [hview]; exact hne)
          rw [hrest .get rfl] at henabled
          cases henabled
        · exact .inl rfl
    by_contra hsome
    obtain ⟨s', hstep⟩ := Option.ne_none_iff_exists'.1 hsome
    cases step_cases hstep with
    | notify => cases hl
    | ignored => cases hl
    | shutDown => cases hl
    | coolDown hl' ht => exact absurd ht (Orchestrator.no_worker_step hs.undeferred.worker hl')
    | get hgetting hm =>
      rw [if_pos hgetting] at hloop
      cases Monitor.step_cases hm with
      | called hi =>
        rw [hloop] at hi
        cases hi
    | queue hl' hm =>
      rw [hqueue _ hl] at hm
      cases hm
    | @handle ev a sys hloop' hsys =>
      have hnone := hrest (.handle a) rfl
      rw [hview] at hnone
      simp [Orchestrator.step, hloop', hsys] at hnone
    | @caller l sys hpermits hsys =>
      have hnone := hrest (.caller l) hl
      rw [hview] at hnone hpermits
      simp [Orchestrator.step, hpermits, hsys] at hnone

/-! ## Coming to rest -/

/-- The steps of the call of `get` that the loop makes next. -/
def idle (loop : Loop) : QueueStage → Nat
  | .outside => if loop = .getting then 12 else 0
  | _ => 0

/-- The potential of the orchestrator, and what the threads that are in `put` will add to it. -/
def cost (known : Finset Nat) (a : QueueView P) (o : Orchestrator κ π ρ δ) : Nat :=
  o.potential known + 2 * (known.card + 1) * (posting .rxReady a + posting .shutDown a)

def potential (known : Finset Nat) (s : Threads P κ π ρ δ) : Nat :=
  14 * cost known (s.events.atomic code) s.orchestrator +
    ∑ i, (s.events.phase i).weight code 2 + idle s.loop ((s.events.atomic code).stage none)

theorem potential_put (known : Finset Nat) (o : Orchestrator κ π ρ δ) (ev : Event) :
    Orchestrator.potential known { o with events := o.events.put ev } =
      o.potential known + 2 * (known.card + 1) := by
  have howed : Orchestrator.owed { o with events := o.events.put ev } = o.owed + 2 := by
    simp only [Orchestrator.owed, MessageQueue.put_queue, List.length_append, List.length_singleton]
    omega
  simp only [Orchestrator.potential, howed, Nat.mul_add]
  omega

omit [DecidableEq P] [Fintype P] in
theorem effect_cases (o : QueueOccurrence P) :
    (effect o : List (Activity κ π ρ)) = [] ∨ (effect o : List (Activity κ π ρ)) = [.get] ∨
      (effect o : List (Activity κ π ρ)) = [.notify .rxReady] ∨
      (effect o : List (Activity κ π ρ)) = [.shutDown] := by
  unfold effect
  split <;> simp

omit [DecidableEq P] in
/-- What takes effect in the queue costs no more than the event or the call was worth. -/
theorem cost_step {known : Finset Nat} {a b : QueueView P} {u u' : Orchestrator κ π ρ δ}
    {o : QueueOccurrence P}
    (hrun : run (Orchestrator.step I) (effect o) u = some u')
    (hposts : ∀ ev, posting ev b + (effect o : List (Activity κ π ρ)).countP (isPost ev) = posting ev a)
    (hu : u.Undeferred) (hknown : ∀ c, c ∉ known → u.system.phase c = .absent) :
    cost known b u' ≤ cost known a u := by
  have hrx := hposts .rxReady
  have hsd := hposts .shutDown
  unfold cost
  rcases effect_cases o with he | he | he | he
  · rw [he] at hrun hrx hsd
    cases hrun
    rw [← hrx, ← hsd]
    exact Nat.le_refl _
  · rw [he] at hrun hrx hsd
    obtain ⟨v, hget, he'⟩ := run_cons_some hrun
    cases he'
    have hlt := Orchestrator.potential_step hu hknown rfl hget
    rw [← hrx, ← hsd]
    exact Nat.add_le_add_right (Nat.le_of_lt hlt) _
  · rw [he] at hrun hrx hsd
    cases hrun
    have hput := potential_put known u .rxReady
    have hone : posting .rxReady a = posting .rxReady b + 1 := hrx.symm
    have hsame : posting .shutDown a = posting .shutDown b := hsd.symm
    have hevents : u.notify .rxReady = { u with events := u.events.put .rxReady } := rfl
    rw [hevents, hput, hone, hsame, Nat.add_right_comm (posting .rxReady b),
      Nat.mul_add (2 * (known.card + 1)) _ 1]
    omega
  · rw [he] at hrun hrx hsd
    cases hrun
    have hput := potential_put known u .shutDown
    have hone : posting .shutDown a = posting .shutDown b + 1 := hsd.symm
    have hsame : posting .rxReady a = posting .rxReady b := hrx.symm
    have hevents : u.shutDown = { u with events := u.events.put .shutDown } := rfl
    rw [hevents, hput, hone, hsame, ← Nat.add_assoc, Nat.mul_add (2 * (known.card + 1)) _ 1]
    omega

omit [Fintype P] in
/-- Inside the queue the loop does not come any closer to its next `get`. -/
theorem idle_step {a b : QueueView P} {loop : Loop}
    {o : QueueOccurrence P} (hs : Serves a loop)
    (ho : ∀ i op, o ≠ .called i op) (h : a.step code o = some b) :
    idle (loop.after o) (b.stage none) ≤ idle loop (a.stage none) := by
  have hother : ∀ {p : P} {st : QueueStage},
      (a.enter (some p) st).stage none = a.stage none := fun {p st} =>
    SharedObject.Atomic.enter_other (by simp) a st
  cases SharedObject.Atomic.step_cases h with
  | called hi => exact absurd rfl (ho _ _)
  | @took i op q v hi hperform =>
    cases i with
    | none =>
      show idle loop ((a.enter none (.took op v)).stage none) ≤ _
      rw [SharedObject.Atomic.enter_self]
      exact Nat.zero_le _
    | some p =>
      show idle loop ((a.enter (some p) (.took op v)).stage none) ≤ _
      rw [hother]
  | @returned i op v hi =>
    cases i with
    | none =>
      have hfits := hs none
      rw [hi] at hfits
      cases hfits with
      | @taken ev hgetting =>
        rw [SharedObject.Atomic.enter_self]
        show (if Loop.on ev = .getting then 12 else 0) ≤ _
        unfold Loop.on
        cases ev <;> exact Nat.zero_le _
    | some p =>
      rw [hother]
      exact Nat.le_refl _

omit [DecidableEq P] in
/-- A step of the machine uses up more than the next call of `get` takes. -/
theorem cost_machine {known : Finset Nat} {a : QueueView P} {u u' : Orchestrator κ π ρ δ}
    {l : Activity κ π ρ} (hu : u.Undeferred) (hknown : ∀ c, c ∉ known → u.system.phase c = .absent)
    (hown : l.isOwn = true) (hrun : run (Orchestrator.step I) [l] u = some u') :
    cost known a u' < cost known a u := by
  obtain ⟨v, hstep, he⟩ := run_cons_some hrun
  cases he
  exact Nat.add_lt_add_right (Orchestrator.potential_step hu hknown hown hstep) _

/-- **Each step that is not made from outside uses up potential.** -/
theorem potential_step {known : Finset Nat} {l : ThreadStep P κ π ρ} (hs : s.Sound)
    (hknown : ∀ c, c ∉ known → s.system.phase c = .absent) (hown : l.isOwn = true)
    (h : s.step I l = some s') : s'.potential known < s.potential known := by
  have hanswer := (step_answered hs h).2
  unfold potential
  cases step_cases h with
  | notify => cases hown
  | ignored => cases hown
  | shutDown => cases hown
  | coolDown hl ht => exact absurd ht (Orchestrator.no_worker_step hs.undeferred.worker hl)
  | @get m hgetting hm =>
    obtain ⟨hatomic, houtside⟩ := atomic_called hs.exclusive hm
    have hview := (hs.called (.getting hgetting) hm).2
    have hcost : cost known (m.atomic code) s.orchestrator =
        cost known (s.events.atomic code) s.orchestrator := by
      unfold cost
      rw [hatomic, posting_enter_loop, posting_enter_loop]
    have hsum : ∑ i, (m.phase i).weight code 2 = ∑ i, (s.events.phase i).weight code 2 + 5 := by
      cases Monitor.step_cases hm with
      | called hi =>
        have hmove := Monitor.sum_move (SharedObject.Phase.weight code 2) s.events none (.entering .get)
        rw [hi] at hmove
        exact hmove
    have hbefore : idle s.loop ((s.events.atomic code).stage none) = 12 := by
      rw [houtside, idle, if_pos hgetting]
    have hafter : idle s.loop ((m.atomic code).stage none) = 0 := by
      rw [hatomic, SharedObject.Atomic.enter_self]
      rfl
    rw [hview, hcost, hbefore]
    show _ + ∑ i, (m.phase i).weight code 2 + idle s.loop ((m.atomic code).stage none) < _
    rw [hafter]
    omega
  | @queue l m hl hm =>
    have hweight : ∑ i, (m.phase i).weight code 2 < ∑ i, (s.events.phase i).weight code 2 :=
      Monitor.weight_step (fun op _ => code_length op) hs.heard.sleepers hown hm
    have hrest : cost known (m.atomic code)
          (QueueView.orchestrator (m.atomic code) s.system s.coolDown
            ((s.events.occurrences code l m).foldl Loop.after s.loop)) ≤
        cost known (s.events.atomic code) s.orchestrator ∧
        idle ((s.events.occurrences code l m).foldl Loop.after s.loop) ((m.atomic code).stage none) ≤
          idle s.loop ((s.events.atomic code).stage none) := by
      rcases atomic_queue hs.exclusive hl hm with ⟨hseen, hsame⟩ | ⟨o, ho, hseen, hatomic⟩
      · rw [hseen, hsame]
        exact ⟨Nat.le_refl _, Nat.le_refl _⟩
      · rw [hseen]
        exact ⟨cost_step (orchestrator_step (I := I) hs.serves ho hatomic).2
          (fun ev => posting_step ev hs.serves ho hatomic) hs.undeferred hknown,
          idle_step hs.serves ho hatomic⟩
    have hcost := Nat.mul_le_mul_left 14 hrest.1
    exact Nat.add_lt_add_of_lt_of_le (Nat.add_lt_add_of_le_of_lt hcost hweight) hrest.2
  | @handle ev a sys hloop hsys =>
    have hcost := cost_machine (a := s.events.atomic code) hs.undeferred hknown rfl hanswer
    have hstage := hs.serves.stage_loop (by rw [hloop]; simp)
    have hidle : idle .getting ((s.events.atomic code).stage none) ≤ 12 := by
      rw [hstage]
      exact Nat.le_refl _
    show 14 * cost known (s.events.atomic code) _ + ∑ i, (s.events.phase i).weight code 2 +
      idle .getting ((s.events.atomic code).stage none) < _
    omega
  | @caller l sys hpermits hsys =>
    have hcost := cost_machine (a := s.events.atomic code) hs.undeferred hknown hown hanswer
    show 14 * cost known (s.events.atomic code) _ + ∑ i, (s.events.phase i).weight code 2 +
      idle s.loop ((s.events.atomic code).stage none) < _
    omega

theorem known_of_own {known : Finset Nat} {l : ThreadStep P κ π ρ} (hs : s.Sound)
    (hknown : ∀ c, c ∉ known → s.system.phase c = .absent) (hown : l.isOwn = true)
    (h : s.step I l = some s') : ∀ c, c ∉ known → s'.system.phase c = .absent := by
  have hanswer := (step_answered hs h).2
  have hmachine : ∀ {m : Activity κ π ρ} {u : Orchestrator κ π ρ δ}, m.isOwn = true →
      run (Orchestrator.step I) [m] s.orchestrator = some u →
      ∀ c, c ∉ known → u.system.phase c = .absent := by
    intro m u hm hrun
    obtain ⟨v, hstep, he⟩ := run_cons_some hrun
    cases he
    exact Orchestrator.known_of_own hknown hm hstep
  cases step_cases h with
  | notify => cases hown
  | ignored => cases hown
  | shutDown => cases hown
  | coolDown hl ht => exact absurd ht (Orchestrator.no_worker_step hs.undeferred.worker hl)
  | get hgetting hm => exact hknown
  | queue hl hm => exact hknown
  | handle hloop hsys => exact hmachine rfl hanswer
  | caller hpermits hsys => exact hmachine hown hanswer

omit [DecidableEq P] in
theorem potential_le (known : Finset Nat) (s : Threads P κ π ρ δ) :
    s.potential known ≤ 14 * (2 * (s.orchestrator.pending.length + Fintype.card P) * (known.card + 1) +
      known.card) + 11 * Fintype.card P + 23 := by
  have horchestrator := s.orchestrator.potential_le known
  have hposting : posting .rxReady (s.events.atomic code) + posting .shutDown (s.events.atomic code) ≤
      Fintype.card P := by
    unfold posting
    rw [← Finset.sum_add_distrib]
    have hone : ∀ st, posts .rxReady st + posts .shutDown st ≤ 1 := by
      intro st
      unfold posts
      split
      · rename_i e
        cases e <;> decide
      · exact Nat.zero_le _
    simpa using Finset.sum_le_card_nsmul Finset.univ _ 1 fun p _ => hone _
  have hweight : ∑ i, (s.events.phase i).weight code 2 ≤ 11 * (Fintype.card P + 1) := by
    have hsum := Finset.sum_le_card_nsmul Finset.univ (fun i => (s.events.phase i).weight code 2) 11
      fun i _ => SharedObject.Phase.weight_le code_length (s.events.phase i)
    rw [Finset.card_univ, Fintype.card_option] at hsum
    simpa [Nat.mul_comm] using hsum
  have hidle : idle s.loop ((s.events.atomic code).stage none) ≤ 12 := by
    unfold idle
    split
    · split <;> omega
    · omega
  have hmul := Nat.mul_le_mul_left (2 * (known.card + 1)) hposting
  have hsplit : 2 * (s.orchestrator.pending.length + Fintype.card P) * (known.card + 1) =
      2 * s.orchestrator.pending.length * (known.card + 1) +
        2 * (known.card + 1) * Fintype.card P := by
    rw [Nat.mul_add 2, Nat.add_mul, Nat.mul_right_comm 2 (Fintype.card P)]
  unfold potential cost
  omega

end Threads

/-- **The threads come to rest**: from every reachable state they can make only so many steps by
themselves, and they rest exactly where the orchestrator does, with nobody inside the queue but the
loop, asleep in `get`: no event is left in the queue for want of a wake-up. -/
theorem threads_come_to_rest {ctx : Context κ π ρ δ} {before : List (ThreadStep P κ π ρ)}
    {s : Threads P κ π ρ δ} (hreach : run (Threads.step I) before (Threads.init ctx) = some s) :
    (∀ ls t, (∀ l ∈ ls, l.isOwn = true) → run (Threads.step I) ls s = some t →
      ls.length ≤ 14 * (2 * (s.orchestrator.pending.length + Fintype.card P) *
        ((before.filterMap ThreadStep.called?).length + 1) +
          (before.filterMap ThreadStep.called?).length) + 11 * Fintype.card P + 23) ∧
      (s.AtRest I ↔ s.orchestrator.AtRest I ∧ (∀ p, s.events.phase (some p) = .outside) ∧
        s.events.phase none = if s.loop = .getting then .asleep .get else .outside) := by
  have hs : s.Sound := run_inv (fun _ _ _ hu h => (Threads.step_answered hu h).1) before _ s
    (Threads.init_sound ctx) hreach
  refine ⟨fun ls t hown hrun => ?_, Threads.rest_iff hs⟩
  obtain ⟨horchestrator, hmachine, -⟩ := threads_refine hreach
  have hnil : (Orchestrator.init ctx).Known [] := fun _ _ => rfl
  have hknown := Orchestrator.known_of_run hnil horchestrator
  rw [List.nil_append, filterMap_called hmachine] at hknown
  generalize before.filterMap ThreadStep.called? = called at hknown
  obtain ⟨-, hlength⟩ := run_length_le (fun l => l.isOwn = true) (Threads.potential called.toFinset)
    (fun s l s' (hs : s.Sound ∧ ∀ c, c ∉ called.toFinset → s.system.phase c = .absent) hl h =>
      ⟨(Threads.step_answered hs.1 h).1, Threads.known_of_own hs.1 hs.2 hl h⟩)
    (fun s l s' hs hl h => Threads.potential_step hs.1 hs.2 hl h) ls s t
    ⟨hs, fun c hc => hknown c (mt List.mem_toFinset.2 hc)⟩ hown hrun
  have hcard : called.toFinset.card ≤ called.length := List.toFinset_card_le called
  have hpotential := Threads.potential_le called.toFinset s
  have hmul := Nat.mul_le_mul_left (2 * (s.orchestrator.pending.length + Fintype.card P))
    (Nat.add_le_add_right hcard 1)
  omega

end Threads

theorem threads_come_to_rest_threadRun :
    ∃ s, run (Threads.step intInterfaces) threadRun (Threads.init intContext) = some s ∧
      (s.AtRest intInterfaces ↔ s.orchestrator.AtRest intInterfaces ∧
        (∀ p, s.events.phase (some p) = .outside) ∧
        s.events.phase none = if s.loop = .getting then .asleep .get else .outside) := by
  obtain ⟨s, hrun⟩ := threadRun_ends
  exact ⟨s, hrun, (threads_come_to_rest hrun).2⟩

end ATLink
