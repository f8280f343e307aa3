import ATLink.EventLoop
import ATLink.Lib.WakeUps

/-!
# The queue, thread by thread

Reference model of `platform/linux/MessageQueue.h` under any number of threads: `put` and `putFront`
under a `lock_guard`, with `notify_one` behind it, and `get` with `condvar.wait` on a queue that is
not empty.  `ATLink.EventLoop` takes them as atomic steps.

* `Operation` — the member functions.
* `code` — their critical sections, as a monitor (`ATLink.Lib.Monitor`).
* `in?`, `out?` — the messages that go into the queue and come out of it.

Principal results: `queue_linearizes` — the threads see an atomic queue, which loses no message and
duplicates none; `queue_comes_to_rest` — no wake-up is lost: where the threads stop by
themselves, those left are in `get`, and the queue is empty.
-/

namespace ATLink

open LabelledRun
open SharedObject (Object Monitor Move)

namespace MessageQueue

variable {T : Type}

/-- A call of a member function. -/
inductive Operation (T : Type) where
  | put (msg : T)
  | putFront (msg : T)
  | get

def putFront (q : MessageQueue T) (msg : T) : MessageQueue T := ⟨msg :: q.queue⟩

/-- The critical sections, with the local `v` of `get`.  What `std::move` leaves in front of the queue
is dropped by `pop_front`. -/
def code : Object (MessageQueue T) (Option T) (Operation T) where
  ready
    | .get, q => !q.queue.isEmpty
    | _, _ => true
  start := none
  body
    | .put msg => [fun c => (c.1.put msg, c.2)]
    | .putFront msg => [fun c => (c.1.putFront msg, c.2)]
    | .get => [fun c => (c.1, c.1.queue.head?), fun c => (⟨c.1.queue.tail⟩, c.2)]
  signals
    | .get => false
    | _ => true

theorem perform_put (q : MessageQueue T) (msg : T) : code.perform (.put msg) q = some (q.put msg, none) :=
  rfl

theorem perform_putFront (q : MessageQueue T) (msg : T) :
    code.perform (.putFront msg) q = some (q.putFront msg, none) := rfl

/-- The critical section of `get` is the `get` of the event loop. -/
theorem perform_get (q : MessageQueue T) : code.perform .get q = q.get.map fun r => (r.2, some r.1) := by
  obtain ⟨queue⟩ := q
  cases queue <;> rfl

/-- What is put in lets somebody pass who waits. -/
theorem code_credited : (code : Object (MessageQueue T) _ _).Credited (·.queue.length) where
  ready_iff op q := by
    obtain ⟨queue⟩ := q
    cases op <;> cases queue <;> simp [code]
  adds op q hsignals := by
    cases op with
    | put msg => simp [code, Object.finish]
    | putFront msg => simp [code, Object.finish, putFront]
    | get => cases hsignals
  uses op q hsignals hpos := by
    obtain ⟨queue⟩ := q
    cases op with
    | put msg => cases hsignals
    | putFront msg => cases hsignals
    | get =>
      simp [code, Object.finish] at hpos ⊢
      omega

theorem code_length (op : Operation T) : (code.body op).length ≤ 2 := by
  cases op <;> simp [code]

variable {ι : Type}

/-- The message that goes in. -/
def in? : SharedObject.Occurrence ι (Option T) (Operation T) → Option T
  | .took _ (.put msg) _ => some msg
  | .took _ (.putFront msg) _ => some msg
  | _ => none

/-- The message that comes out. -/
def out? : SharedObject.Occurrence ι (Option T) (Operation T) → Option T
  | .took _ .get v => v
  | _ => none

def isPutFront : SharedObject.Occurrence ι (Option T) (Operation T) → Bool
  | .took _ (.putFront _) _ => true
  | _ => false

variable [DecidableEq ι] {a b : SharedObject.Atomic ι (MessageQueue T) (Option T) (Operation T)}

/-- What goes in comes out or is still there. -/
theorem step_conserves {o : SharedObject.Occurrence ι (Option T) (Operation T)}
    (h : a.step code o = some b) :
    (a.object.queue ++ (in? o).toList).Perm ((out? o).toList ++ b.object.queue) ∧
      (isPutFront o = false → a.object.queue ++ (in? o).toList = (out? o).toList ++ b.object.queue) := by
  have hsame : ∀ {q : MessageQueue T}, q = a.object →
      (a.object.queue ++ []).Perm ([] ++ q.queue) ∧
        (isPutFront o = false → a.object.queue ++ [] = [] ++ q.queue) := by
    rintro q rfl
    rw [List.append_nil, List.nil_append]
    exact ⟨List.Perm.refl _, fun _ => rfl⟩
  cases SharedObject.Atomic.step_cases h with
  | called hi => exact hsame rfl
  | returned hi => exact hsame rfl
  | @took i op q v hi hperform =>
    cases op with
    | put msg =>
      rw [perform_put] at hperform
      cases hperform
      exact ⟨List.Perm.refl _, fun _ => rfl⟩
    | putFront msg =>
      rw [perform_putFront] at hperform
      cases hperform
      exact ⟨List.perm_append_singleton msg a.object.queue, fun he => by cases he⟩
    | get =>
      rw [perform_get] at hperform
      obtain ⟨⟨w, rest⟩, hget, he⟩ := Option.map_eq_some_iff.1 hperform
      cases he
      have hq := get_eq_some_iff.1 hget
      have hqueue : a.object.queue ++ [] = [w] ++ rest.queue := by
        rw [List.append_nil, hq]
        rfl
      exact ⟨hqueue ▸ List.Perm.refl _, fun _ => hqueue⟩

theorem run_conserves {os : List (SharedObject.Occurrence ι (Option T) (Operation T))}
    (hrun : run (SharedObject.Atomic.step code) os a = some b) :
    (a.object.queue ++ os.filterMap in?).Perm (os.filterMap out? ++ b.object.queue) ∧
      ((∀ o ∈ os, isPutFront o = false) →
        a.object.queue ++ os.filterMap in? = os.filterMap out? ++ b.object.queue) := by
  induction os generalizing a with
  | nil =>
    cases hrun
    simp
  | cons o os ih =>
    obtain ⟨u, hstep, hrest⟩ := run_cons_some hrun
    obtain ⟨hperm, heq⟩ := step_conserves hstep
    obtain ⟨hperm', heq'⟩ := ih hrest
    have hin : (o :: os).filterMap in? = (in? o).toList ++ os.filterMap in? := by
      cases hi : in? o <;> simp [hi]
    have hout : (o :: os).filterMap out? = (out? o).toList ++ os.filterMap out? := by
      cases ho : out? o <;> simp [ho]
    rw [hin, hout, ← List.append_assoc, List.append_assoc (out? o).toList]
    constructor
    · refine (hperm.append_right _).trans ?_
      rw [List.append_assoc]
      exact hperm'.append_left _
    · intro hfront
      rw [heq (hfront o List.mem_cons_self), List.append_assoc,
        heq' fun p hp => hfront p (List.mem_cons_of_mem o hp)]

end MessageQueue

section Queue

variable {ι T : Type} [DecidableEq ι] [Fintype ι]

open MessageQueue

/-- **The queue is linearizable**: what any number of threads see of `put`, `putFront` and `get` is a
run of the queue whose operations take effect one at a time and as a whole, each between its call
and its return.  Every message that goes in comes out once or is still there, and in order if
`putFront` is not used. -/
theorem queue_linearizes {ls : List (Move ι (Operation T))}
    {s : Monitor ι (MessageQueue T) (Option T) (Operation T)}
    (hrun : run (Monitor.step code) ls (Monitor.init ⟨[]⟩) = some s) :
    let seen := collect (Monitor.step code) (Monitor.occurrences code) ls (Monitor.init ⟨[]⟩)
    run (SharedObject.Atomic.step code) seen (SharedObject.Atomic.init ⟨[]⟩) = some (s.atomic code) ∧
      (seen.filterMap in?).Perm (seen.filterMap out? ++ (s.completed code).queue) ∧
      ((∀ o ∈ seen, isPutFront o = false) →
        seen.filterMap in? = seen.filterMap out? ++ (s.completed code).queue) := by
  intro seen
  obtain ⟨b, hatomic, -, rfl⟩ := (Monitor.linearization code).run_answered
    ⟨Monitor.init_exclusive ⟨[]⟩, rfl⟩ hrun
  obtain ⟨hperm, heq⟩ := run_conserves hatomic
  exact ⟨hatomic, hperm, heq⟩

/-- **The queue loses no wake-up**: from every reachable state the threads can make only so many
steps without a new call or a spurious wake-up, and they come to rest exactly where every
thread is outside, or sleeps in `get` with the queue empty. -/
theorem queue_comes_to_rest {before : List (Move ι (Operation T))}
    {s : Monitor ι (MessageQueue T) (Option T) (Operation T)}
    (hreach : run (Monitor.step code) before (Monitor.init ⟨[]⟩) = some s) :
    (∀ ls t, (∀ l ∈ ls, l.isOwn = true) → run (Monitor.step code) ls s = some t →
      ls.length ≤ 11 * Fintype.card ι) ∧
      (s.AtRest code ↔
        ∀ i, s.phase i = .outside ∨ s.phase i = .asleep .get ∧ s.object.queue = []) := by
  have hs : s.Heard code (·.queue.length) :=
    run_inv (fun _ _ _ hs h => Monitor.step_heard code_credited hs h) before _ s
      (Monitor.init_heard ⟨[]⟩) hreach
  constructor
  · intro ls t hown hrun
    have hlength := Monitor.run_rests code_credited code_length hs hown hrun
    omega
  · rw [Monitor.rest_iff code_credited hs]
    refine forall_congr' fun i => or_congr_right ?_
    constructor
    · rintro ⟨op, hi, hready⟩
      cases op with
      | put msg => cases hready
      | putFront msg => cases hready
      | get => exact ⟨hi, by simpa [code] using hready⟩
    · rintro ⟨hi, hempty⟩
      exact ⟨.get, hi, by simp [code, hempty]⟩

end Queue

/-! ## A thread that waits, and one that wakes it -/

/-- The first thread sleeps in `get` until the second one has put a message. -/
def wakeRun : List (Move Bool (MessageQueue.Operation Event)) :=
  [.call false .get, .lock false, .test false, .call true (.put .rxReady), .lock true, .test true,
    .exec true, .unlock true, .notify true (some false), .lock false, .test false, .exec false,
    .exec false, .unlock false]

theorem wakeRun_ends : ∃ s, run (Monitor.step MessageQueue.code) wakeRun (Monitor.init ⟨[]⟩) = some s ∧
    ∀ i, s.phase i = .outside := by
  refine ⟨_, rfl, fun i => ?_⟩
  cases i <;> rfl

theorem queue_linearizes_wakeRun : ∃ s,
    run (Monitor.step MessageQueue.code) wakeRun (Monitor.init ⟨[]⟩) = some s ∧
      [Event.rxReady].Perm ([.rxReady] ++ (s.completed MessageQueue.code).queue) := by
  obtain ⟨s, hrun, -⟩ := wakeRun_ends
  exact ⟨s, hrun, (queue_linearizes hrun).2.1⟩

theorem queue_comes_to_rest_wakeRun : ∃ s,
    run (Monitor.step MessageQueue.code) wakeRun (Monitor.init ⟨[]⟩) = some s ∧
      s.AtRest MessageQueue.code := by
  obtain ⟨s, hrun, houtside⟩ := wakeRun_ends
  exact ⟨s, hrun, (queue_comes_to_rest hrun).2.2 fun i => .inl (houtside i)⟩

end ATLink
