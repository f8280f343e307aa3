import ATLink.Lib.Simulation

/-!
# The timer

Reference model of `platform/linux/Timer.h`: the thread that calls `start` and `stop`, and the one
that `start` spawns, interleaved at the critical sections of the mutex.

* `Worker` — the spawned thread: in `condvar.wait_for`, behind it with the handler it has read and
  the lock released, behind the call of the handler, or ended.
* `Owner` — the thread that uses the timer: `start` begins with a `stop`, and `stop` ends with a
  `join`.
* `Timer.step` — one critical section of either, or a call of the handler; `none` where it cannot
  be taken.
* `fired` — the call of a handler, with the number of its start.

Principal results: `Sound` — what holds between the fields in every reachable state; `fires_soundly` —
each start calls the handler at most once, in the order of the starts, and not at all once it is
stopped before it expires; behind `stop` nothing is called before the next `start`; `stop_returns` —
the `join` of a `stop` waits for two more steps of the spawned thread at most.
-/

namespace ATLink

open LabelledRun

/-- Where the thread that `start` spawns stands. -/
inductive Worker.Stage (H : Type) where
  | waiting
  | expired (cb : Option H)
  | called
  | finished

/-- The thread has not called its handler yet. -/
def Worker.Stage.mayCall {H : Type} : Worker.Stage H → Bool
  | .waiting => true
  | .expired _ => true
  | _ => false

/-- The spawned thread, with the generation it has been given.  `start` is not in the source: the
number of the start. -/
structure Worker (H : Type) where
  gen : UInt64
  start : Nat
  stage : Worker.Stage H

/-- Where the thread that uses the timer stands: outside, in front of the `join` of `stop` (which
may be the one that `start` begins with), and in front of the critical section of `start` and of
the creation of the thread. -/
inductive Owner where
  | outside
  | joining (restart : Bool)
  | arming
  | spawning
  deriving DecidableEq

/-- `starts` is not in the source: the number of threads spawned so far. -/
structure Timer (H : Type) where
  callback : Option H
  stopFlag : Bool
  generation : UInt64
  running : Bool
  worker : Option (Worker H)
  owner : Owner
  starts : Nat

namespace Timer

inductive Step (H : Type) where
  | setHandler (cb : H)
  | start
  | stop
  | join
  | arm
  | spawn
  | cancel
  | expire
  | call
  | finish

/-- The steps of the spawned thread. -/
def Step.ofWorker {H : Type} : Step H → Bool
  | .cancel | .expire | .call | .finish => true
  | _ => false

variable {H : Type}

def init : Timer H := ⟨none, false, 0, false, none, .outside, 0⟩

def isRunning (t : Timer H) : Bool := t.running

/-- The critical section of `stop`. -/
def cancelRunning (t : Timer H) (restart : Bool) : Timer H :=
  if t.running then
    { t with stopFlag := true, generation := t.generation + 1, owner := .joining restart }
  else { t with owner := .joining restart }

/-- The predicate of `wait_for`. -/
def canceled (t : Timer H) (w : Worker H) : Bool := t.stopFlag || w.gen != t.generation

/-- The thread has ended, or there is none. -/
def joinable : Option (Worker H) → Bool
  | none => true
  | some ⟨_, _, .finished⟩ => true
  | some _ => false

def step (t : Timer H) : Step H → Option (Timer H)
  | .setHandler cb => if t.owner = .outside then some { t with callback := some cb } else none
  | .start => if t.owner = .outside then some (t.cancelRunning true) else none
  | .stop => if t.owner = .outside then some (t.cancelRunning false) else none
  | .join =>
    match t.owner with
    | .joining restart =>
      if joinable t.worker then
        some { t with
          worker := none, running := false, owner := if restart then .arming else .outside }
      else none
    | _ => none
  | .arm =>
    if t.owner = .arming then
      some { t with
        stopFlag := false, running := true, generation := t.generation + 1, owner := .spawning }
    else none
  | .spawn =>
    if t.owner = .spawning then
      some { t with
        worker := some ⟨t.generation, t.starts, .waiting⟩, owner := .outside,
        starts := t.starts + 1 }
    else none
  | .cancel =>
    match t.worker with
    | some ⟨gen, n, .waiting⟩ =>
      if t.canceled ⟨gen, n, .waiting⟩ then
        some { t with worker := some ⟨gen, n, .finished⟩, running := false }
      else none
    | _ => none
  | .expire =>
    match t.worker with
    | some ⟨gen, n, .waiting⟩ =>
      if t.canceled ⟨gen, n, .waiting⟩ then none
      else some { t with worker := some ⟨gen, n, .expired t.callback⟩ }
    | _ => none
  | .call =>
    match t.worker with
    | some ⟨gen, n, .expired _⟩ => some { t with worker := some ⟨gen, n, .called⟩ }
    | _ => none
  | .finish =>
    match t.worker with
    | some ⟨gen, n, .called⟩ =>
      some { t with worker := some ⟨gen, n, .finished⟩, running := false }
    | _ => none

/-- The handler that a step calls, with the number of the start. -/
def fired (t : Timer H) (l : Step H) (_ : Timer H) : List (Nat × H) :=
  match l, t.worker with
  | .call, some ⟨_, n, .expired (some cb)⟩ => [(n, cb)]
  | _, _ => []

/-! ## What a step can do -/

/-- **What a step does**, by its label. -/
inductive Stepped (t : Timer H) : Step H → Timer H → Prop where
  | setHandler {cb : H} : t.owner = .outside → Stepped t (.setHandler cb) { t with callback := some cb }
  | start : t.owner = .outside → Stepped t .start (t.cancelRunning true)
  | stop : t.owner = .outside → Stepped t .stop (t.cancelRunning false)
  | join {restart : Bool} : t.owner = .joining restart → joinable t.worker = true →
      Stepped t .join { t with
        worker := none, running := false, owner := if restart then .arming else .outside }
  | arm : t.owner = .arming → Stepped t .arm { t with
      stopFlag := false, running := true, generation := t.generation + 1, owner := .spawning }
  | spawn : t.owner = .spawning → Stepped t .spawn { t with
      worker := some ⟨t.generation, t.starts, .waiting⟩, owner := .outside, starts := t.starts + 1 }
  | cancel {gen : UInt64} {n : Nat} : t.worker = some ⟨gen, n, .waiting⟩ →
      t.canceled ⟨gen, n, .waiting⟩ = true →
      Stepped t .cancel { t with worker := some ⟨gen, n, .finished⟩, running := false }
  | expire {gen : UInt64} {n : Nat} : t.worker = some ⟨gen, n, .waiting⟩ →
      t.canceled ⟨gen, n, .waiting⟩ = false →
      Stepped t .expire { t with worker := some ⟨gen, n, .expired t.callback⟩ }
  | call {gen : UInt64} {n : Nat} {cb : Option H} : t.worker = some ⟨gen, n, .expired cb⟩ →
      Stepped t .call { t with worker := some ⟨gen, n, .called⟩ }
  | finish {gen : UInt64} {n : Nat} : t.worker = some ⟨gen, n, .called⟩ →
      Stepped t .finish { t with worker := some ⟨gen, n, .finished⟩, running := false }

theorem step_cases {t t' : Timer H} {l : Step H} (h : t.step l = some t') : Stepped t l t' := by
  cases l with
  | setHandler cb =>
    simp only [step] at h
    split at h
    · rename_i ho; cases h; exact .setHandler ho
    · cases h
  | start =>
    simp only [step] at h
    split at h
    · rename_i ho; cases h; exact .start ho
    · cases h
  | stop =>
    simp only [step] at h
    split at h
    · rename_i ho; cases h; exact .stop ho
    · cases h
  | join =>
    simp only [step] at h
    split at h
    · rename_i restart ho
      split at h
      · rename_i hw; cases h; exact .join ho hw
      · cases h
    · cases h
  | arm =>
    simp only [step] at h
    split at h
    · rename_i ho; cases h; exact .arm ho
    · cases h
  | spawn =>
    simp only [step] at h
    split at h
    · rename_i ho; cases h; exact .spawn ho
    · cases h
  | cancel =>
    simp only [step] at h
    split at h
    · rename_i gen n hw
      split at h
      · rename_i hc; cases h; exact .cancel hw hc
      · cases h
    · cases h
  | expire =>
    simp only [step] at h
    split at h
    · rename_i gen n hw
      split at h
      · cases h
      · rename_i hc; cases h; exact .expire hw (by simpa using hc)
    · cases h
  | call =>
    simp only [step] at h
    split at h
    · rename_i gen n cb hw; cases h; exact .call hw
    · cases h
  | finish =>
    simp only [step] at h
    split at h
    · rename_i gen n hw; cases h; exact .finish hw
    · cases h

/-- The critical section of `stop` raises the flag where the timer runs. -/
theorem cancelRunning_cases (t : Timer H) (restart : Bool) :
    t.running = true ∧ t.cancelRunning restart =
        { t with stopFlag := true, generation := t.generation + 1, owner := .joining restart } ∨
      t.running = false ∧ t.cancelRunning restart = { t with owner := .joining restart } := by
  unfold cancelRunning
  cases h : t.running with
  | true => exact Or.inl ⟨rfl, rfl⟩
  | false => exact Or.inr ⟨rfl, rfl⟩

/-! ## The fields, in every reachable state -/

/-- What holds between the fields: the timer runs from arming to the end of the thread; there is
one thread at most; one that still waits while `stop` is joining it finds the flag raised. -/
structure Sound (t : Timer H) : Prop where
  running : t.running = true ↔ t.owner = .spawning ∨ joinable t.worker = false
  alone : t.owner = .arming ∨ t.owner = .spawning → t.worker = none
  counted : ∀ w, t.worker = some w → w.start < t.starts
  flagged : ∀ restart gen n, t.owner = .joining restart → t.worker = some ⟨gen, n, .waiting⟩ →
    t.stopFlag = true

theorem init_sound : (init : Timer H).Sound where
  running := by simp [init, joinable]
  alone _ := rfl
  counted _ h := by cases h
  flagged _ _ _ h := by cases h

/-- `stop` and the beginning of `start`. -/
theorem Sound.cancelRunning {t : Timer H} (hs : t.Sound) (ho : t.owner = .outside) (restart : Bool) :
    (t.cancelRunning restart).Sound := by
  have hrunning := hs.running
  rw [ho] at hrunning
  rcases t.cancelRunning_cases restart with ⟨hr, he⟩ | ⟨hr, he⟩ <;> rw [he]
  · exact {
      running := by simpa using hrunning
      alone := fun h => by simp at h
      counted := hs.counted
      flagged := fun _ _ _ _ _ => rfl }
  · refine {
      running := by simpa using hrunning
      alone := fun h => by simp at h
      counted := hs.counted
      flagged := fun _ gen n _ hw => ?_ }
    -- a timer that does not run has no thread that waits
    have hjoinable : joinable t.worker = false := by
      rw [show t.worker = some ⟨gen, n, .waiting⟩ from hw]
      rfl
    rw [hrunning.2 (Or.inr hjoinable)] at hr
    cases hr

/-- The thread goes on: the timer runs until it has ended. -/
theorem Sound.advance {t : Timer H} {gen : UInt64} {n : Nat} {stage stage' : Worker.Stage H}
    {running : Bool} (hs : t.Sound) (hw : t.worker = some ⟨gen, n, stage⟩) (hstage : stage' ≠ .waiting)
    (hrunning : running = true ↔ joinable (some ⟨gen, n, stage'⟩) = false) :
    Sound { t with worker := some ⟨gen, n, stage'⟩, running := running } := by
  have hne : t.owner ≠ .spawning := by
    intro ho
    rw [hs.alone (Or.inr ho)] at hw
    cases hw
  have hcounted := hs.counted _ hw
  exact {
    running := hrunning.trans (or_iff_right hne).symm
    alone := fun h => by rw [hs.alone h] at hw; cases hw
    counted := fun w h => by cases h; exact hcounted
    flagged := fun _ _ _ _ h => by cases h; exact absurd rfl hstage }

/-- Every step keeps the invariant. -/
theorem step_sound {t t' : Timer H} {l : Step H} (hs : t.Sound) (h : t.step l = some t') :
    t'.Sound := by
  -- a thread that has not ended runs
  have hruns : ∀ {w : Worker H}, t.worker = some w → joinable (some w) = false → t.running = true := by
    intro w hw hj
    exact hs.running.2 (Or.inr (by rw [hw]; exact hj))
  cases step_cases h with
  | setHandler ho => exact ⟨hs.running, hs.alone, hs.counted, hs.flagged⟩
  | start ho => exact hs.cancelRunning ho true
  | stop ho => exact hs.cancelRunning ho false
  | @join restart ho hw =>
    exact {
      running := by cases restart <;> simp [joinable]
      alone := fun _ => rfl
      counted := fun _ h => by cases h
      flagged := fun _ _ _ _ h => by cases h }
  | arm ho =>
    have hnone := hs.alone (Or.inl ho)
    exact {
      running := by simp
      alone := fun _ => hnone
      counted := hs.counted
      flagged := fun _ _ _ h => by cases h }
  | spawn ho =>
    have hrunning := hs.running.2 (Or.inl ho)
    exact {
      running := by simpa [joinable] using hrunning
      alone := fun h => by simp at h
      counted := fun w hw => by cases hw; exact Nat.lt_succ_self _
      flagged := fun _ _ _ h => by cases h }
  | cancel hw hc => exact hs.advance hw (by simp) (by simp [joinable])
  | expire hw hc => exact hs.advance hw (by simp) (iff_of_true (hruns hw rfl) rfl)
  | call hw => exact hs.advance hw (by simp) (iff_of_true (hruns hw rfl) rfl)
  | finish hw => exact hs.advance hw (by simp) (by simp [joinable])

/-! ## Calls of the handler -/

/-- The starts whose handler has been called, in increasing order; the thread that may still call
belongs to a later one. -/
structure Fires (t : Timer H) (calls : List (Nat × H)) : Prop where
  sound : t.Sound
  increasing : (calls.map (·.1)).Pairwise (· < ·)
  past : ∀ e ∈ calls, e.1 < t.starts
  fresh : ∀ w, t.worker = some w → w.stage.mayCall = true → ∀ e ∈ calls, e.1 < w.start

/-- A step that calls nothing and leaves the thread, or makes it unable to call. -/
theorem Fires.silent {t t' : Timer H} {calls : List (Nat × H)} (h : t.Fires calls) (hs : t'.Sound)
    (hstarts : t'.starts = t.starts)
    (hworker : ∀ w, t'.worker = some w → w.stage.mayCall = true →
      ∃ w', t.worker = some w' ∧ w'.stage.mayCall = true ∧ w'.start = w.start) : t'.Fires calls where
  sound := hs
  increasing := h.increasing
  past e he := by rw [hstarts]; exact h.past e he
  fresh w hw hmay e he := by
    obtain ⟨w', hw', hmay', hn⟩ := hworker w hw hmay
    rw [← hn]
    exact h.fresh w' hw' hmay' e he

theorem cancelRunning_frame (t : Timer H) (restart : Bool) :
    (t.cancelRunning restart).worker = t.worker ∧ (t.cancelRunning restart).starts = t.starts ∧
      (t.cancelRunning restart).owner = .joining restart := by
  rcases t.cancelRunning_cases restart with ⟨-, he⟩ | ⟨-, he⟩ <;> rw [he] <;> exact ⟨rfl, rfl, rfl⟩

/-- Every step keeps the order of the calls. -/
theorem step_fires {t t' : Timer H} {l : Step H} {calls : List (Nat × H)} (hf : t.Fires calls)
    (h : t.step l = some t') : t'.Fires (calls ++ fired t l t') := by
  have hs' := step_sound hf.sound h
  have hsame : t'.worker = t.worker → t'.starts = t.starts → t'.Fires calls := fun hw hn =>
    hf.silent hs' hn fun w hw' hmay => ⟨w, by rw [← hw]; exact hw', hmay, rfl⟩
  cases step_cases h with
  | setHandler ho => simpa [fired] using hsame rfl rfl
  | start ho =>
    obtain ⟨hw, hn, -⟩ := t.cancelRunning_frame true
    simpa [fired] using hsame hw hn
  | stop ho =>
    obtain ⟨hw, hn, -⟩ := t.cancelRunning_frame false
    simpa [fired] using hsame hw hn
  | join ho hw => simpa [fired] using hf.silent hs' rfl fun w hw' => by cases hw'
  | arm ho => simpa [fired] using hsame rfl rfl
  | spawn ho =>
    rw [show fired t .spawn _ = [] from rfl, List.append_nil]
    exact {
      sound := hs'
      increasing := hf.increasing
      past := fun e he => Nat.lt_succ_of_lt (hf.past e he)
      fresh := fun w hw _ e he => by cases hw; exact hf.past e he }
  | cancel hw hc =>
    simpa [fired] using hf.silent hs' rfl fun w hw' hmay => by cases hw'; cases hmay
  | @expire gen n hw hc =>
    simpa [fired] using hf.silent hs' rfl fun w hw' _ => ⟨_, hw, rfl, by cases hw'; rfl⟩
  | @call gen n cb hw =>
    have hcall : fired t .call { t with worker := some ⟨gen, n, .called⟩ } =
        (cb.map fun cb => (n, cb)).toList := by
      unfold fired
      rw [hw]
      cases cb <;> rfl
    rw [hcall]
    cases cb with
    | none => simpa using hf.silent hs' rfl fun w hw' hmay => by cases hw'; cases hmay
    | some cb =>
      have hbefore := hf.fresh _ hw rfl
      have hn := hf.sound.counted _ hw
      refine {
        sound := hs'
        increasing := ?_
        past := fun e he => ?_
        fresh := fun w hw' hmay => by cases hw'; cases hmay }
      · simp only [Option.map_some, Option.toList_some, List.map_append, List.map_cons, List.map_nil]
        refine List.pairwise_append.2 ⟨hf.increasing, List.pairwise_singleton _ _, fun m hm m' hm' => ?_⟩
        obtain ⟨e, he, rfl⟩ := List.mem_map.1 hm
        rw [List.mem_singleton.1 hm']
        exact hbefore e he
      · rcases List.mem_append.1 he with he | he
        · exact hf.past e he
        · rw [List.mem_singleton.1 he]
          exact hn
  | finish hw =>
    simpa [fired] using hf.silent hs' rfl fun w hw' hmay => by cases hw'; cases hmay

/-! ## Canceled starts -/

/-- The start with that number has been stopped before it expired: it has called nothing, and its
thread, as long as there is one, waits with the flag raised or has ended. -/
structure Canceled (n : Nat) (t : Timer H) (calls : List (Nat × H)) : Prop where
  sound : t.Sound
  past : n < t.starts
  silent : ∀ e ∈ calls, e.1 ≠ n
  thread : ∀ gen stage, t.worker = some ⟨gen, n, stage⟩ →
    (∃ restart, t.owner = .joining restart) ∧ stage = .waiting ∨ stage = .finished

/-- A canceled start stays canceled. -/
theorem step_canceled {n : Nat} {t t' : Timer H} {l : Step H} {calls : List (Nat × H)}
    (hc : t.Canceled n calls) (h : t.step l = some t') : t'.Canceled n (calls ++ fired t l t') := by
  have hs' := step_sound hc.sound h
  have hother : ∀ {w : Worker H}, t.worker = some w → w.stage ≠ .finished → w.stage ≠ .waiting →
      w.start ≠ n := by
    rintro ⟨gen, m, stage⟩ hw hne hne' rfl
    rcases hc.thread gen stage hw with ⟨-, he⟩ | he
    · exact hne' he
    · exact hne he
  have hsilent : t.starts ≤ t'.starts → (∀ gen stage, t'.worker = some ⟨gen, n, stage⟩ →
      (∃ restart, t'.owner = .joining restart) ∧ stage = .waiting ∨ stage = .finished) →
      t'.Canceled n calls := fun hle hthread =>
    ⟨hs', Nat.lt_of_lt_of_le hc.past hle, hc.silent, hthread⟩
  -- outside of `stop` its thread has ended
  have houtside : t.owner = .outside → ∀ gen stage, t.worker = some ⟨gen, n, stage⟩ →
      stage = .finished := by
    intro ho gen stage hw
    rcases hc.thread gen stage hw with ⟨⟨restart, hj⟩, -⟩ | he
    · rw [ho] at hj; cases hj
    · exact he
  have hstop : ∀ restart, t.owner = .outside → ∀ gen stage,
      (t.cancelRunning restart).worker = some ⟨gen, n, stage⟩ → stage = .finished := by
    intro restart ho gen stage hw
    rw [(t.cancelRunning_frame restart).1] at hw
    exact houtside ho gen stage hw
  cases step_cases h with
  | setHandler ho =>
    simpa [fired] using hsilent (Nat.le_refl _) fun gen stage hw => Or.inr (houtside ho gen stage hw)
  | start ho =>
    have hle := Nat.le_of_eq (t.cancelRunning_frame true).2.1.symm
    simpa [fired] using hsilent hle fun gen stage hw => Or.inr (hstop true ho gen stage hw)
  | stop ho =>
    have hle := Nat.le_of_eq (t.cancelRunning_frame false).2.1.symm
    simpa [fired] using hsilent hle fun gen stage hw => Or.inr (hstop false ho gen stage hw)
  | join ho hw => simpa [fired] using hsilent (Nat.le_refl _) fun _ _ hw' => by cases hw'
  | arm ho =>
    have hnone := hc.sound.alone (Or.inl ho)
    simpa [fired] using hsilent (Nat.le_refl _) fun gen stage hw => by
      rw [show t.worker = some ⟨gen, n, stage⟩ from hw] at hnone
      cases hnone
  | spawn ho =>
    have hlt := hc.past
    simpa [fired] using hsilent (Nat.le_succ _) fun gen stage hw => by
      cases hw
      exact absurd hlt (Nat.lt_irrefl _)
  | cancel hw hflag =>
    simpa [fired] using hsilent (Nat.le_refl _) fun gen stage hw' => by cases hw'; exact Or.inr rfl
  | @expire gen m hw hflag =>
    simpa [fired] using hsilent (Nat.le_refl _) fun gen' stage hw' => by
      -- the flag is raised for a thread that waits
      cases hw'
      rcases hc.thread gen .waiting hw with ⟨⟨restart, ho⟩, -⟩ | he
      · have hraised := hc.sound.flagged restart gen n ho hw
        simp [Timer.canceled, hraised] at hflag
      · cases he
  | @call gen m cb hw =>
    have hne : m ≠ n := hother hw (by simp) (by simp)
    have hcanceled : Canceled n { t with worker := some ⟨gen, m, .called⟩ } calls :=
      hsilent (Nat.le_refl _) fun gen' stage hw' => by cases hw'; exact absurd rfl hne
    refine { hcanceled with silent := fun e he => ?_ }
    rcases List.mem_append.1 he with he | he
    · exact hc.silent e he
    · unfold fired at he
      rw [hw] at he
      cases cb with
      | none => cases he
      | some cb => rw [List.mem_singleton.1 he]; exact hne
  | @finish gen m hw =>
    simpa [fired] using hsilent (Nat.le_refl _) fun gen' stage hw' => by cases hw'; exact Or.inr rfl

/-- `stop`, and `start`, cancel the start whose thread still waits. -/
theorem canceled_of_stop {n : Nat} {gen : UInt64} {u u' : Timer H} {l : Step H}
    {calls : List (Nat × H)} (hf : u.Fires calls) (hl : l = .start ∨ l = .stop)
    (hw : u.worker = some ⟨gen, n, .waiting⟩) (h : u.step l = some u') :
    u'.Canceled n (calls ++ fired u l u') := by
  have hs' := step_sound hf.sound h
  have hcut : ∀ restart, (u.cancelRunning restart).Sound → (u.cancelRunning restart).Canceled n calls := by
    intro restart hsound
    obtain ⟨hworker, hstarts, howner⟩ := u.cancelRunning_frame restart
    refine ⟨hsound, ?_, fun e he => Nat.ne_of_lt (hf.fresh _ hw rfl e he), fun gen' stage hw' => ?_⟩
    · rw [hstarts]
      exact hf.sound.counted _ hw
    · rw [hworker, hw] at hw'
      cases hw'
      exact Or.inl ⟨⟨restart, howner⟩, rfl⟩
  rcases hl with rfl | rfl
  · cases step_cases h with
    | start ho => simpa [fired] using hcut true hs'
  · cases step_cases h with
    | stop ho => simpa [fired] using hcut false hs'

/-! ## Behind `stop` -/

/-- Nothing runs, and nothing is about to be started. -/
structure Quiet (t : Timer H) : Prop where
  sound : t.Sound
  ended : joinable t.worker = true
  owner : t.owner = .outside ∨ t.owner = .joining false

theorem Quiet.isRunning {t : Timer H} (h : t.Quiet) : t.isRunning = false := by
  have hnot : ¬ (t.owner = .spawning ∨ joinable t.worker = false) := by
    rintro (ho | hw)
    · rcases h.owner with ho' | ho' <;> rw [ho] at ho' <;> cases ho'
    · rw [h.ended] at hw
      cases hw
  show t.running = false
  simpa using mt h.sound.running.1 hnot

/-- Without a `start` the timer stays quiet, and calls nothing. -/
theorem step_quiet {t t' : Timer H} {l : Step H} (hq : t.Quiet) (hl : l ≠ .start)
    (h : t.step l = some t') : t'.Quiet ∧ fired t l t' = [] := by
  have hs' := step_sound hq.sound h
  have hended : ∀ {gen n stage}, t.worker = some ⟨gen, n, stage⟩ → joinable (some ⟨gen, n, stage⟩) = true := by
    intro gen n stage hw
    rw [← hw]
    exact hq.ended
  cases step_cases h with
  | setHandler ho => exact ⟨⟨hs', hq.ended, hq.owner⟩, rfl⟩
  | start ho => exact absurd rfl hl
  | stop ho =>
    obtain ⟨hw, -, howner⟩ := t.cancelRunning_frame false
    exact ⟨⟨hs', by rw [hw]; exact hq.ended, Or.inr howner⟩, rfl⟩
  | @join restart ho hw =>
    have hrestart : restart = false := by
      rcases hq.owner with ho' | ho' <;> rw [ho] at ho' <;> cases ho'
      rfl
    subst hrestart
    exact ⟨⟨hs', rfl, Or.inl rfl⟩, rfl⟩
  | arm ho => rcases hq.owner with ho' | ho' <;> rw [ho] at ho' <;> cases ho'
  | spawn ho => rcases hq.owner with ho' | ho' <;> rw [ho] at ho' <;> cases ho'
  | cancel hw => cases hended hw
  | expire hw => cases hended hw
  | call hw => cases hended hw
  | finish hw => cases hended hw

theorem run_quiet : ∀ {ls : List (Step H)} {t v : Timer H}, t.Quiet → .start ∉ ls →
    run step ls t = some v → v.Quiet ∧ collect step fired ls t = []
  | [], t, v, hq, _, hrun => by
    cases hrun
    exact ⟨hq, rfl⟩
  | l :: ls, t, v, hq, hls, hrun => by
    obtain ⟨t', h1, h2⟩ := run_cons_some hrun
    obtain ⟨hq', hnone⟩ := step_quiet hq (fun he => hls (he ▸ List.mem_cons_self)) h1
    obtain ⟨hv, hrest⟩ := run_quiet hq' (fun he => hls (List.mem_cons_of_mem _ he)) h2
    exact ⟨hv, by rw [collect_cons h1, hnone, hrest]; rfl⟩

/-! ## Runs -/

theorem run_fires {ls : List (Step H)} {t : Timer H} (hrun : run step ls init = some t) :
    t.Fires (collect step fired ls init) :=
  run_history fired (P := Fires) (fun _ _ _ _ hf h => step_fires hf h) ls init t []
    ⟨init_sound, .nil, fun _ he => (by cases he), fun _ hw => (by cases hw)⟩ hrun

/-- **Calls of the handler**: in every run the handler is called at most once for each start, in
the order of the starts, and not at all for one that is stopped, or started again, while its thread
waits; and once `stop` has returned the timer does not run and calls nothing until it is started
again. -/
theorem fires_soundly {ls : List (Step H)} {t : Timer H} (hrun : run step ls init = some t) :
    ((collect step fired ls init).map (·.1)).Pairwise (· < ·) ∧
      (∀ pre l post u gen n, ls = pre ++ l :: post → l = .start ∨ l = .stop →
        run step pre init = some u → u.worker = some ⟨gen, n, .waiting⟩ →
        n ∉ (collect step fired ls init).map (·.1)) ∧
      (t.owner = .outside → t.worker = none → ∀ ms v, .start ∉ ms → run step ms t = some v →
        v.isRunning = false ∧ collect step fired ms t = []) := by
  have hfires := run_fires hrun
  refine ⟨hfires.increasing, ?_, ?_⟩
  · rintro pre l post u gen n rfl hl hpre hw
    obtain ⟨u₁, u', hpre', hstep, hpost⟩ := run_split hrun
    rw [hpre] at hpre'
    cases hpre'
    have hcanceled := canceled_of_stop (run_fires hpre) hl hw hstep
    have hend := run_history fired (P := Canceled n) (fun _ _ _ _ hc h => step_canceled hc h)
      post u' t _ hcanceled hpost
    rw [collect_append hpre, collect_cons hstep, ← List.append_assoc]
    intro hmem
    obtain ⟨e, he, hn⟩ := List.mem_map.1 hmem
    exact hend.silent e he hn
  · intro ho hw ms v hms hrun'
    obtain ⟨hv, hnone⟩ := run_quiet ⟨hfires.sound, by rw [hw]; rfl, Or.inl ho⟩ hms hrun'
    exact ⟨hv.isRunning, hnone⟩

/-- The first start expires and calls its handler; the second one is stopped while it waits. -/
def twoStarts : List (Step Bool) :=
  [.setHandler true, .start, .join, .arm, .spawn, .expire, .call, .start, .finish, .join, .arm, .spawn,
    .stop, .cancel, .join]

theorem fires_soundly_twoStarts :
    ∃ t, run step twoStarts init = some t ∧ collect step fired twoStarts init = [(0, true)] ∧
      ((collect step fired twoStarts init).map (·.1)).Pairwise (· < ·) ∧
      (∀ pre l post u gen n, twoStarts = pre ++ l :: post → l = .start ∨ l = .stop →
        run step pre init = some u → u.worker = some ⟨gen, n, .waiting⟩ →
        n ∉ (collect step fired twoStarts init).map (·.1)) ∧
      (t.owner = .outside → t.worker = none → ∀ ms v, .start ∉ ms → run step ms t = some v →
        v.isRunning = false ∧ collect step fired ms t = []) := by
  have hsome : (run step twoStarts init).isSome = true := by decide +kernel
  obtain ⟨t, hrun⟩ := Option.isSome_iff_exists.1 hsome
  exact ⟨t, hrun, by decide +kernel, fires_soundly hrun⟩

/-! ## Waiting in `stop` -/

/-- The steps that the thread still makes while it is being joined. -/
def remaining (t : Timer H) : Nat :=
  match t.worker with
  | some ⟨_, _, .waiting⟩ => 1
  | some ⟨_, _, .expired _⟩ => 2
  | some ⟨_, _, .called⟩ => 1
  | _ => 0

theorem remaining_le (t : Timer H) : t.remaining ≤ 2 := by
  unfold remaining
  split <;> omega

/-- The thread goes on to its end, and `stop` still waits for it. -/
theorem joined_step {t t' : Timer H} {l : Step H} {restart : Bool} (hs : t.Sound)
    (ho : t.owner = .joining restart) (hl : l.ofWorker = true) (h : t.step l = some t') :
    t'.owner = .joining restart ∧ t'.remaining < t.remaining := by
  cases step_cases h with
  | setHandler => cases hl
  | start => cases hl
  | stop => cases hl
  | join => cases hl
  | arm => cases hl
  | spawn => cases hl
  | cancel hw hc =>
    unfold remaining
    rw [hw]
    exact ⟨ho, Nat.zero_lt_one⟩
  | @expire gen n hw hc =>
    -- the flag is raised
    have hflag := hs.flagged restart gen n ho hw
    unfold canceled at hc
    rw [hflag] at hc
    cases hc
  | call hw =>
    unfold remaining
    rw [hw]
    exact ⟨ho, Nat.lt_succ_self 1⟩
  | finish hw =>
    unfold remaining
    rw [hw]
    exact ⟨ho, Nat.zero_lt_one⟩

/-- The thread can go on, or `join` returns. -/
theorem joined_enabled {t : Timer H} {restart : Bool} (hs : t.Sound) (ho : t.owner = .joining restart) :
    (∃ l : Step H, l.ofWorker = true ∧ (t.step l).isSome = true) ∨ (t.step .join).isSome = true := by
  cases hw : t.worker with
  | none =>
    right
    simp only [step, ho, hw, joinable, if_true, Option.isSome_some]
  | some w =>
    obtain ⟨gen, n, stage⟩ := w
    cases stage with
    | waiting =>
      have hflag := hs.flagged restart gen n ho hw
      refine Or.inl ⟨.cancel, rfl, ?_⟩
      simp only [step, hw, canceled, hflag, Bool.true_or, if_true, Option.isSome_some]
    | expired cb =>
      refine Or.inl ⟨.call, rfl, ?_⟩
      simp only [step, hw, Option.isSome_some]
    | called =>
      refine Or.inl ⟨.finish, rfl, ?_⟩
      simp only [step, hw, Option.isSome_some]
    | finished =>
      right
      simp only [step, ho, hw, joinable, if_true, Option.isSome_some]

/-- **`stop` returns**: from every reachable state in which `stop`, or the one that `start` begins
with, waits for the thread, the thread makes at most two more steps, and until it has ended it can
always make one. -/
theorem stop_returns {ls : List (Step H)} {t : Timer H} {restart : Bool}
    (hrun : run step ls init = some t) (ho : t.owner = .joining restart) :
    ∀ ms u, (∀ l ∈ ms, l.ofWorker = true) → run step ms t = some u → ms.length ≤ 2 ∧
      ((∃ l : Step H, l.ofWorker = true ∧ (u.step l).isSome = true) ∨
        (u.step .join).isSome = true) := by
  intro ms u hms hrun'
  have hs : t.Sound := run_inv (fun _ _ _ hs h => step_sound hs h) ls init t init_sound hrun
  obtain ⟨⟨hu, hou⟩, hlength⟩ := run_length_le (fun l : Step H => l.ofWorker = true) remaining
    (fun v l v' (hv : v.Sound ∧ v.owner = .joining restart) hl h =>
      ⟨step_sound hv.1 h, (joined_step hv.1 hv.2 hl h).1⟩)
    (fun v l v' hv hl h => (joined_step hv.1 hv.2 hl h).2) ms t u ⟨hs, ho⟩ hms hrun'
  have hle := t.remaining_le
  exact ⟨by omega, joined_enabled hu hou⟩

/-- A timer that has expired is stopped before it has called its handler. -/
theorem stop_returns_expired :
    ∃ t u : Timer Bool, run step [.setHandler true, .start, .join, .arm, .spawn, .expire, .stop] init =
        some t ∧ t.owner = .joining false ∧ run step [.call] t = some u ∧ 1 ≤ 2 ∧
      ((∃ l : Step Bool, l.ofWorker = true ∧ (u.step l).isSome = true) ∨
        (u.step .join).isSome = true) := by
  have hsome : (run step ([.setHandler true, .start, .join, .arm, .spawn, .expire, .stop] ++ [.call])
      (init : Timer Bool)).isSome = true := by decide +kernel
  obtain ⟨u, hu⟩ := Option.isSome_iff_exists.1 hsome
  obtain ⟨t, ht, hcall⟩ := run_of_append hu
  have howner : (run step [.setHandler true, .start, .join, .arm, .spawn, .expire, .stop]
      (init : Timer Bool)).map (·.owner) = some (.joining false) := by decide +kernel
  rw [ht] at howner
  have ho : t.owner = .joining false := Option.some.inj howner
  have hworker : ∀ l ∈ [(.call : Step Bool)], l.ofWorker = true := by
    intro l hl
    rw [List.mem_singleton.1 hl]
    rfl
  exact ⟨t, u, ht, ho, hcall, stop_returns ht ho [.call] u hworker hcall⟩

end Timer

end ATLink
