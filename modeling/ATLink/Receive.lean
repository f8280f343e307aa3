import ATLink.Lib.CopyDown
import ATLink.Lib.StringView
import ATLink.ResponsePack
import ATLink.Send

/-!
# Receiving

Reference model of `Orchestrator::receive`, `dispatchUrcs` and `dispatchAllUrcs` of
`core/fsm/Orchestrator.h`.

* `Virtuals` — the virtual functions that are called: `accept` of the result pack and of the
  response object on a fresh `Deserializer` over a text (the verdict, the object afterwards and
  `consumed()`), and `dispatch`.  `none` is an exception.
* `RxLoop` — the locals of `receive` and the objects it works on.  `taken` is not in the source:
  the slices of the input consumed so far, in order, each with its consumer.
* `loopBody`, `rxLoop` — one iteration of the `while (true)`, and the loop.  An exception ends
  in `Except.error` with the state it was thrown in.
* `RxBuffer` — `rxstorage` and `leftover`.

Principal results: `loopBody_iff` — the four ways an iteration can end, `Turn`; `rxLoop_iff` —
the loop is a sequence of such iterations, and it always ends; `Runs.last_turn` — its invariant
rule.
-/

namespace ATLink

open StringView CopyDown

/-- The virtual functions behind `AResponsePack`, `Response` and `AUrcDispatcher`. -/
structure Virtuals (π ρ δ : Type) where
  acceptResult : π → Text → Option (Bool × π × Nat)
  acceptResponse : ρ → Text → Option (Bool × ρ × Nat)
  dispatch : δ → Text → Option (Nat × δ)

/-- The parsers of a pack of the types `Rs` and of a response of the type `R`. -/
def Virtuals.ofTypes {δ : Type} (Rs : List ResponseType) (R : ResponseType)
    (dispatch : δ → Text → Option (Nat × δ)) : Virtuals (ResponsePack.Variant Rs) R.Obj δ where
  acceptResult value txt := ResponsePack.accept Rs value txt 0
  acceptResponse obj txt := R.accept obj txt 0
  dispatch := dispatch

/-- A dispatcher that takes nothing, as `UrcDispatcher` of the Linux example. -/
def takesNothing (_ : Unit) (_ : Text) : Option (Nat × Unit) := some (0, ())

/-- Who consumed a slice of the input. -/
inductive Consumer where
  | response
  | result
  | urc
  deriving DecidableEq

abbrev Slice := Consumer × Text

structure RxLoop (π ρ δ : Type) where
  input : Text
  haveResponse : Bool
  haveResult : Bool
  frc : π
  res : Option ρ
  urcs : δ
  taken : List Slice

section Loop

variable {π ρ δ : Type} (V : Virtuals π ρ δ)

/-- `txt = txt.substr(consumed)`. -/
def RxLoop.take (s : RxLoop π ρ δ) (c : Consumer) (consumed : Nat) :
    Except (RxLoop π ρ δ) (RxLoop π ρ δ) :=
  let taken := s.taken ++ [(c, s.input.take consumed)]
  match substr s.input consumed with
  | some rest => .ok { s with input := rest, taken := taken }
  | none => .error { s with taken := taken }

def tryResponse (s : RxLoop π ρ δ) : Except (RxLoop π ρ δ) (Bool × RxLoop π ρ δ) :=
  match s.res with
  | none => .ok (false, s)
  | some res =>
    match V.acceptResponse res s.input with
    | none => .error s
    | some (false, res, _) => .ok (false, { s with res := some res })
    | some (true, res, consumed) =>
      (RxLoop.take { s with res := some res } .response consumed).map (true, ·)

def tryResult (s : RxLoop π ρ δ) : Except (RxLoop π ρ δ) (Bool × RxLoop π ρ δ) :=
  match V.acceptResult s.frc s.input with
  | none => .error s
  | some (false, frc, _) => .ok (false, { s with frc := frc })
  | some (true, frc, consumed) =>
    (RxLoop.take { s with frc := frc } .result consumed).map (true, ·)

def trySingleUrc (s : RxLoop π ρ δ) : Except (RxLoop π ρ δ) (Bool × RxLoop π ρ δ) :=
  match V.dispatch s.urcs s.input with
  | none => .error s
  | some (consumed, urcs) =>
    if 0 < consumed then (RxLoop.take { s with urcs := urcs } .urc consumed).map (true, ·)
    else .ok (false, { s with urcs := urcs })

/-- `if (!haveResponse)`. -/
def tryMissingResponse (s : RxLoop π ρ δ) : Except (RxLoop π ρ δ) (Bool × RxLoop π ρ δ) :=
  if s.haveResponse then .ok (false, s) else tryResponse V s

/-- `if (!haveResult)`. -/
def tryMissingResult (s : RxLoop π ρ δ) : Except (RxLoop π ρ δ) (Bool × RxLoop π ρ δ) :=
  if s.haveResult then .ok (false, s) else tryResult V s

/-- One iteration of the loop, and whether another one follows. -/
def loopBody (s : RxLoop π ρ δ) : Except (RxLoop π ρ δ) (Bool × RxLoop π ρ δ) :=
  let before := s.input.length
  match tryMissingResponse V s with
  | .error s => .error s
  | .ok (true, s) => .ok (true, { s with haveResponse := true })
  | .ok (false, s) =>
    match tryMissingResult V s with
    | .error s => .error s
    | .ok (true, s) => .ok (true, { s with haveResult := true })
    | .ok (false, s) =>
      match trySingleUrc V s with
      | .error s => .error s
      | .ok (true, s) => .ok (true, s)
      | .ok (false, s) => .ok (decide (s.input.length ≠ before), s)

/-! ## One iteration -/

/-- The response is not tried on the input, or rejects it; `res'` is the object afterwards. -/
inductive NoResponse (haveResponse : Bool) (res : Option ρ) (input : Text) : Option ρ → Prop where
  | taken : haveResponse = true → NoResponse haveResponse res input res
  | absent : res = none → NoResponse haveResponse res input none
  | rejects {obj res' : ρ} {n : Nat} : haveResponse = false → res = some obj →
      V.acceptResponse obj input = some (false, res', n) →
      NoResponse haveResponse res input (some res')

/-- The result is not tried on the input, or rejects it; `frc'` is the pack afterwards. -/
inductive NoResult (haveResult : Bool) (frc : π) (input : Text) : π → Prop where
  | taken : haveResult = true → NoResult haveResult frc input frc
  | rejects {frc' : π} {n : Nat} : haveResult = false →
      V.acceptResult frc input = some (false, frc', n) → NoResult haveResult frc input frc'

/-- An iteration that throws nothing: it takes a response, a result or a URC and goes on, or
takes nothing and is the last one. -/
inductive Turn (s : RxLoop π ρ δ) : Bool → RxLoop π ρ δ → Prop where
  | response {res res' : ρ} {n : Nat} : s.haveResponse = false → s.res = some res →
      V.acceptResponse res s.input = some (true, res', n) → n ≤ s.input.length →
      Turn s true { s with
        input := s.input.drop n, haveResponse := true, res := some res',
        taken := s.taken ++ [(.response, s.input.take n)] }
  | result {res' : Option ρ} {frc : π} {n : Nat} :
      NoResponse V s.haveResponse s.res s.input res' → s.haveResult = false →
      V.acceptResult s.frc s.input = some (true, frc, n) → n ≤ s.input.length →
      Turn s true { s with
        input := s.input.drop n, haveResult := true, frc := frc, res := res',
        taken := s.taken ++ [(.result, s.input.take n)] }
  | urc {res' : Option ρ} {frc : π} {urcs : δ} {n : Nat} :
      NoResponse V s.haveResponse s.res s.input res' → NoResult V s.haveResult s.frc s.input frc →
      V.dispatch s.urcs s.input = some (n, urcs) → 0 < n → n ≤ s.input.length →
      Turn s true { s with
        input := s.input.drop n, frc := frc, res := res', urcs := urcs,
        taken := s.taken ++ [(.urc, s.input.take n)] }
  | last {res' : Option ρ} {frc : π} {urcs : δ} :
      NoResponse V s.haveResponse s.res s.input res' → NoResult V s.haveResult s.frc s.input frc →
      V.dispatch s.urcs s.input = some (0, urcs) →
      Turn s false { s with frc := frc, res := res', urcs := urcs }

variable {V} {s s' : RxLoop π ρ δ}

/-- A response that is missing and accepts is not passed over. -/
theorem NoResponse.not_accepts {haveResponse : Bool} {res r : Option ρ} {input : Text} {obj obj' : ρ}
    {n : Nat} (h : NoResponse V haveResponse res input r) (hflag : haveResponse = false)
    (hres : res = some obj) : V.acceptResponse obj input ≠ some (true, obj', n) := by
  cases h with
  | taken hset => rw [hflag] at hset; cases hset
  | absent hnone => rw [hres] at hnone; cases hnone
  | rejects _ hres' hreject =>
    rw [hres] at hres'
    cases hres'
    rw [hreject]
    simp

/-- A result that is missing and accepts is not passed over. -/
theorem NoResult.not_accepts {haveResult : Bool} {frc frc' r : π} {input : Text} {n : Nat}
    (h : NoResult V haveResult frc input r) (hflag : haveResult = false) :
    V.acceptResult frc input ≠ some (true, frc', n) := by
  cases h with
  | taken hset => rw [hflag] at hset; cases hset
  | rejects _ hreject =>
    rw [hreject]
    simp

/-- What an accepting parser takes has to lie inside the input. -/
theorem RxLoop.take_iff {c : Consumer} {n : Nat} {found : Bool} :
    (s.take c n).map (true, ·) = Except.ok (found, s') ↔ found = true ∧ n ≤ s.input.length ∧
      s' = { s with input := s.input.drop n, taken := s.taken ++ [(c, s.input.take n)] } := by
  unfold RxLoop.take
  by_cases hn : n ≤ s.input.length
  · rw [substr_of_le hn]
    simp only [Except.map, Except.ok.injEq, Prod.mk.injEq, hn, true_and, eq_comm]
  · unfold substr
    rw [if_neg hn]
    simp only [Except.map, reduceCtorEq, hn, false_and, and_false]

/-- The attempt to take the response. -/
theorem responseTried_iff {found : Bool} :
    tryMissingResponse V s = Except.ok (found, s') ↔
      (found = false ∧ ∃ res', NoResponse V s.haveResponse s.res s.input res' ∧
          s' = { s with res := res' }) ∨
        ∃ res res' n, found = true ∧ s.haveResponse = false ∧ s.res = some res ∧
          V.acceptResponse res s.input = some (true, res', n) ∧ n ≤ s.input.length ∧
          s' = { s with
            input := s.input.drop n, res := some res',
            taken := s.taken ++ [(.response, s.input.take n)] } := by
  unfold tryMissingResponse
  constructor
  · intro h
    split at h
    · rename_i hflag
      cases h
      exact Or.inl ⟨rfl, s.res, .taken hflag, rfl⟩
    · rename_i hflag
      have hflag : s.haveResponse = false := Bool.eq_false_iff.2 hflag
      unfold tryResponse at h
      split at h
      · rename_i hres
        cases h
        exact Or.inl ⟨rfl, none, .absent hres, by rw [← hres]⟩
      · rename_i res hres
        split at h
        · cases h
        · rename_i res' n haccept
          cases h
          exact Or.inl ⟨rfl, some res', .rejects hflag hres haccept, rfl⟩
        · rename_i res' n haccept
          obtain ⟨rfl, hn, rfl⟩ := RxLoop.take_iff.1 h
          exact Or.inr ⟨res, res', n, rfl, hflag, hres, haccept, hn, rfl⟩
  · rintro (⟨rfl, res', hno, rfl⟩ | ⟨res, res', n, rfl, hflag, hres, haccept, hn, rfl⟩)
    · cases hno with
      | taken hflag => rw [if_pos hflag]
      | absent hres =>
        have hsame : s = { s with res := none } := by rw [← hres]
        split
        · exact congrArg (fun t => Except.ok (false, t)) hsame
        · unfold tryResponse
          rw [hres]
          exact congrArg (fun t => Except.ok (false, t)) hsame
      | rejects hflag hres haccept =>
        rw [if_neg (by rw [hflag]; decide), tryResponse, hres]
        simp only [haccept]
    · rw [if_neg (by rw [hflag]; decide), tryResponse, hres]
      simp only [haccept]
      exact RxLoop.take_iff.2 ⟨rfl, hn, rfl⟩

/-- The attempt to take the result. -/
theorem resultTried_iff {found : Bool} :
    tryMissingResult V s = Except.ok (found, s') ↔
      (found = false ∧ ∃ frc, NoResult V s.haveResult s.frc s.input frc ∧ s' = { s with frc := frc }) ∨
        ∃ frc n, found = true ∧ s.haveResult = false ∧
          V.acceptResult s.frc s.input = some (true, frc, n) ∧ n ≤ s.input.length ∧
          s' = { s with
            input := s.input.drop n, frc := frc,
            taken := s.taken ++ [(.result, s.input.take n)] } := by
  unfold tryMissingResult
  constructor
  · intro h
    split at h
    · rename_i hflag
      cases h
      exact Or.inl ⟨rfl, s.frc, .taken hflag, rfl⟩
    · rename_i hflag
      have hflag : s.haveResult = false := Bool.eq_false_iff.2 hflag
      unfold tryResult at h
      split at h
      · cases h
      · rename_i frc n haccept
        cases h
        exact Or.inl ⟨rfl, frc, .rejects hflag haccept, rfl⟩
      · rename_i frc n haccept
        obtain ⟨rfl, hn, rfl⟩ := RxLoop.take_iff.1 h
        exact Or.inr ⟨frc, n, rfl, hflag, haccept, hn, rfl⟩
  · rintro (⟨rfl, frc, hno, rfl⟩ | ⟨frc, n, rfl, hflag, haccept, hn, rfl⟩)
    · cases hno with
      | taken hflag => rw [if_pos hflag]
      | rejects hflag haccept =>
        rw [if_neg (by rw [hflag]; decide), tryResult]
        simp only [haccept]
    · rw [if_neg (by rw [hflag]; decide), tryResult]
      simp only [haccept]
      exact RxLoop.take_iff.2 ⟨rfl, hn, rfl⟩

theorem NoResponse.tried {res' : Option ρ}
    (hno : NoResponse V s.haveResponse s.res s.input res') :
    tryMissingResponse V s = .ok (false, { s with res := res' }) :=
  responseTried_iff.2 (Or.inl ⟨rfl, res', hno, rfl⟩)

theorem NoResult.tried {frc' : π} (hno : NoResult V s.haveResult s.frc s.input frc') :
    tryMissingResult V s = .ok (false, { s with frc := frc' }) :=
  resultTried_iff.2 (Or.inl ⟨rfl, frc', hno, rfl⟩)

/-- The attempt to dispatch a URC. -/
theorem urcTried_iff {found : Bool} :
    trySingleUrc V s = Except.ok (found, s') ↔
      (found = false ∧ ∃ urcs, V.dispatch s.urcs s.input = some (0, urcs) ∧
          s' = { s with urcs := urcs }) ∨
        ∃ urcs n, found = true ∧ V.dispatch s.urcs s.input = some (n, urcs) ∧ 0 < n ∧
          n ≤ s.input.length ∧
          s' = { s with
            input := s.input.drop n, urcs := urcs, taken := s.taken ++ [(.urc, s.input.take n)] } := by
  constructor
  · intro h
    unfold trySingleUrc at h
    split at h
    · cases h
    · rename_i n urcs hdispatch
      split at h
      · rename_i hpos
        obtain ⟨rfl, hn, rfl⟩ := RxLoop.take_iff.1 h
        exact Or.inr ⟨urcs, n, rfl, hdispatch, hpos, hn, rfl⟩
      · rename_i hpos
        obtain rfl : n = 0 := by omega
        cases h
        exact Or.inl ⟨rfl, urcs, hdispatch, rfl⟩
  · rintro (⟨rfl, urcs, hdispatch, rfl⟩ | ⟨urcs, n, rfl, hdispatch, hpos, hn, rfl⟩)
    · simp only [trySingleUrc, hdispatch, Nat.lt_irrefl, if_false]
    · simp only [trySingleUrc, hdispatch, hpos, if_true]
      exact RxLoop.take_iff.2 ⟨rfl, hn, rfl⟩

/-- **One iteration**: it ends without an exception exactly as a `Turn` does. -/
theorem loopBody_iff {more : Bool} : loopBody V s = .ok (more, s') ↔ Turn V s more s' := by
  constructor
  · intro h
    unfold loopBody at h
    split at h
    · cases h
    · -- the response is taken
      rename_i s1 hr
      cases h
      rcases responseTried_iff.1 hr with ⟨hfound, -⟩ | ⟨res, res', n, -, hflag, hres, haccept, hn, rfl⟩
      · cases hfound
      · exact .response hflag hres haccept hn
    · rename_i s1 hr
      rcases responseTried_iff.1 hr with ⟨-, res', hno, rfl⟩ | ⟨res, res', n, hfound, -⟩
      swap
      · cases hfound
      split at h
      · cases h
      · -- the result is taken
        rename_i s2 hf
        cases h
        rcases resultTried_iff.1 hf with ⟨hfound, -⟩ | ⟨frc, n, -, hflag, haccept, hn, rfl⟩
        · cases hfound
        · exact .result hno hflag haccept hn
      · rename_i s2 hf
        rcases resultTried_iff.1 hf with ⟨-, frc, hno', rfl⟩ | ⟨frc, n, hfound, -⟩
        swap
        · cases hfound
        split at h
        · cases h
        · -- a URC is taken
          rename_i s3 hu
          cases h
          rcases urcTried_iff.1 hu with ⟨hfound, -⟩ | ⟨urcs, n, -, hdispatch, hpos, hn, rfl⟩
          · cases hfound
          · exact .urc hno hno' hdispatch hpos hn
        · -- nothing is taken, and the input is as long as before
          rename_i s3 hu
          rcases urcTried_iff.1 hu with ⟨-, urcs, hdispatch, rfl⟩ | ⟨urcs, n, hfound, -⟩
          swap
          · cases hfound
          simp only [ne_eq, not_true_eq_false, decide_false, Except.ok.injEq, Prod.mk.injEq] at h
          obtain ⟨rfl, rfl⟩ := h
          exact .last hno hno' hdispatch
  · intro h
    unfold loopBody
    cases h with
    | response hflag hres haccept hn =>
      rw [responseTried_iff.2 (Or.inr ⟨_, _, _, rfl, hflag, hres, haccept, hn, rfl⟩)]
    | @result res' frc n hno hflag haccept hn =>
      have hresponse : tryMissingResponse V s = .ok (false, { s with res := res' }) := hno.tried
      have hresult : tryMissingResult V { s with res := res' } = .ok (true, { s with
          input := s.input.drop n, frc := frc, res := res',
          taken := s.taken ++ [(.result, s.input.take n)] }) :=
        resultTried_iff.2 (Or.inr ⟨frc, n, rfl, hflag, haccept, hn, rfl⟩)
      simp only [hresponse, hresult]
    | @urc res' frc urcs n hno hno' hdispatch hpos hn =>
      have hresponse : tryMissingResponse V s = .ok (false, { s with res := res' }) := hno.tried
      have hresult : tryMissingResult V { s with res := res' } =
          .ok (false, { s with res := res', frc := frc }) :=
        NoResult.tried hno'
      have hurc : trySingleUrc V { s with res := res', frc := frc } = .ok (true, { s with
          input := s.input.drop n, frc := frc, res := res', urcs := urcs,
          taken := s.taken ++ [(.urc, s.input.take n)] }) :=
        urcTried_iff.2 (Or.inr ⟨urcs, n, rfl, hdispatch, hpos, hn, rfl⟩)
      simp only [hresponse, hresult, hurc]
    | @last res' frc urcs hno hno' hdispatch =>
      have hresponse : tryMissingResponse V s = .ok (false, { s with res := res' }) := hno.tried
      have hresult : tryMissingResult V { s with res := res' } =
          .ok (false, { s with res := res', frc := frc }) :=
        NoResult.tried hno'
      have hurc : trySingleUrc V { s with res := res', frc := frc } =
          .ok (false, { s with res := res', frc := frc, urcs := urcs }) :=
        urcTried_iff.2 (Or.inl ⟨rfl, urcs, hdispatch, rfl⟩)
      simp [hresponse, hresult, hurc]

/-! ## The loop -/

/-- Bound on the iterations left: every one that goes on takes characters or sets a flag. -/
def RxLoop.weight (s : RxLoop π ρ δ) : Nat :=
  s.input.length + (if s.haveResponse then 0 else 1) + (if s.haveResult then 0 else 1)

theorem Turn.weight_lt (h : Turn V s true s') : s'.weight < s.weight := by
  unfold RxLoop.weight
  cases h with
  | response hflag hres haccept hn =>
    simp only [hflag, List.length_drop, if_true, Bool.false_eq_true, if_false]
    omega
  | result hno hflag haccept hn =>
    simp only [hflag, List.length_drop, if_true, Bool.false_eq_true, if_false]
    omega
  | urc hno hno' hdispatch hpos hn =>
    simp only [List.length_drop]
    omega

end Loop

section Receive

variable {π ρ δ : Type} (V : Virtuals π ρ δ)

/-- `while (true)`. -/
def rxLoop (s : RxLoop π ρ δ) : Except (RxLoop π ρ δ) (RxLoop π ρ δ) :=
  match _h : loopBody V s with
  | .error s => .error s
  | .ok (true, s') => rxLoop s'
  | .ok (false, s') => .ok s'
termination_by s.weight
decreasing_by exact (loopBody_iff.1 _h).weight_lt

/-- The attempt before the loop, and the loop. -/
def receiveLoop (s : RxLoop π ρ δ) : Except (RxLoop π ρ δ) (RxLoop π ρ δ) :=
  match tryMissingResponse V s with
  | .error s => .error s
  | .ok (true, s) => rxLoop V { s with haveResponse := true }
  | .ok (false, s) => rxLoop V s

/-- A whole loop: turns that go on, and a last one. -/
inductive Runs : RxLoop π ρ δ → RxLoop π ρ δ → Prop where
  | last {s t : RxLoop π ρ δ} : Turn V s false t → Runs s t
  | turn {s s' t : RxLoop π ρ δ} : Turn V s true s' → Runs s' t → Runs s t

variable {V} {s s' t : RxLoop π ρ δ}

theorem rxLoop_turn (h : Turn V s true s') : rxLoop V s = rxLoop V s' := by
  have hbody := loopBody_iff.2 h
  rw [rxLoop]
  split
  · rename_i s1 he; rw [hbody] at he; cases he
  · rename_i s1 he; rw [hbody] at he; cases he; rfl
  · rename_i s1 he; rw [hbody] at he; cases he

theorem rxLoop_last (h : Turn V s false t) : rxLoop V s = .ok t := by
  have hbody := loopBody_iff.2 h
  rw [rxLoop]
  split
  · rename_i s1 he; rw [hbody] at he; cases he
  · rename_i s1 he; rw [hbody] at he; cases he
  · rename_i s1 he; rw [hbody] at he; cases he; rfl

theorem rxLoop_throws {e : RxLoop π ρ δ} (hbody : loopBody V s = .error e) :
    rxLoop V s = .error e := by
  rw [rxLoop]
  split
  · rename_i s1 he; rw [hbody] at he; cases he; rfl
  · rename_i s1 he; rw [hbody] at he; cases he
  · rename_i s1 he; rw [hbody] at he; cases he

/-- **The loop is a sequence of turns.** -/
theorem rxLoop_iff : rxLoop V s = .ok t ↔ Runs V s t := by
  constructor
  · intro h
    fun_induction rxLoop V s with
    | case1 s e he => cases h
    | case2 s s' he ih => exact .turn (loopBody_iff.1 he) (ih h)
    | case3 s s' he => cases h; exact .last (loopBody_iff.1 he)
  · intro h
    induction h with
    | last h => exact rxLoop_last h
    | turn h _ ih => rw [rxLoop_turn h, ih]

/-- **The invariant rule of the loop**: what every turn that goes on keeps holds in front of the
last one. -/
theorem Runs.last_turn {P : RxLoop π ρ δ → Prop} (hkeep : ∀ s s', P s → Turn V s true s' → P s')
    (h : Runs V s t) (hs : P s) : ∃ u, P u ∧ Turn V u false t := by
  induction h with
  | last h => exact ⟨_, hs, h⟩
  | turn h _ ih => exact ih (hkeep _ _ hs h)

/-- A response that is taken at once is the first turn of the loop. -/
theorem receiveLoop_accepts {res res' : ρ} {n : Nat} (hflag : s.haveResponse = false)
    (hres : s.res = some res) (haccept : V.acceptResponse res s.input = some (true, res', n))
    (hn : n ≤ s.input.length) : receiveLoop V s = rxLoop V s := by
  unfold receiveLoop
  rw [responseTried_iff.2 (Or.inr ⟨res, res', n, rfl, hflag, hres, haccept, hn, rfl⟩)]
  exact (rxLoop_turn (.response hflag hres haccept hn)).symm

/-- A response that is not taken at once is tried again in the loop. -/
theorem receiveLoop_rejects {res' : Option ρ} (hno : NoResponse V s.haveResponse s.res s.input res') :
    receiveLoop V s = rxLoop V { s with res := res' } := by
  unfold receiveLoop
  rw [hno.tried]

/-- A loop that ends is a sequence of turns, from the response object that the attempt before the
loop leaves behind where it takes nothing. -/
theorem receiveLoop_runs (h : receiveLoop V s = .ok t) :
    ∃ res', (res' = s.res ∨ NoResponse V s.haveResponse s.res s.input res') ∧
      Runs V { s with res := res' } t := by
  unfold receiveLoop at h
  split at h
  · cases h
  · rename_i s1 htried
    rcases responseTried_iff.1 htried with ⟨hfound, -⟩ | ⟨res, res', n, -, hflag, hres, ha, hn, rfl⟩
    · cases hfound
    · exact ⟨s.res, Or.inl rfl, .turn (.response hflag hres ha hn) (rxLoop_iff.1 h)⟩
  · rename_i s1 htried
    rcases responseTried_iff.1 htried with ⟨-, res', hno, rfl⟩ | ⟨res, res', n, hfound, -⟩
    · exact ⟨res', Or.inr hno, rxLoop_iff.1 h⟩
    · cases hfound

/-- Where the first iteration has a turn the attempt before the loop throws nothing. -/
theorem receiveLoop_of_turn {more : Bool} (h : Turn V s more s') :
    ∃ res', (res' = s.res ∨ NoResponse V s.haveResponse s.res s.input res') ∧
      receiveLoop V s = rxLoop V { s with res := res' } := by
  cases h with
  | response hflag hres ha hn => exact ⟨s.res, Or.inl rfl, receiveLoop_accepts hflag hres ha hn⟩
  | result hno => exact ⟨_, Or.inr hno, receiveLoop_rejects hno⟩
  | urc hno => exact ⟨_, Or.inr hno, receiveLoop_rejects hno⟩
  | last hno => exact ⟨_, Or.inr hno, receiveLoop_rejects hno⟩

/-- An iteration ends without an exception where each parser that it comes to throws nothing and
consumes at most the input. -/
theorem exists_turn
    (hresponse : ∀ res, s.haveResponse = false → s.res = some res → ∃ ok res' n,
      V.acceptResponse res s.input = some (ok, res', n) ∧ (ok = true → n ≤ s.input.length))
    (hresult : ∀ res', NoResponse V s.haveResponse s.res s.input res' → s.haveResult = false →
      ∃ ok frc' n, V.acceptResult s.frc s.input = some (ok, frc', n) ∧ (ok = true → n ≤ s.input.length))
    (hdispatch : ∀ res' frc', NoResponse V s.haveResponse s.res s.input res' →
      NoResult V s.haveResult s.frc s.input frc' →
      ∃ n urcs', V.dispatch s.urcs s.input = some (n, urcs') ∧ n ≤ s.input.length) :
    ∃ more s', Turn V s more s' := by
  -- the rest of the iteration once the response is out of the way
  have hrest : ∀ res', NoResponse V s.haveResponse s.res s.input res' → ∃ more s', Turn V s more s' := by
    intro res' hno
    have hurc : ∀ frc', NoResult V s.haveResult s.frc s.input frc' → ∃ more s', Turn V s more s' := by
      intro frc' hno'
      obtain ⟨n, urcs', hd, hn⟩ := hdispatch res' frc' hno hno'
      rcases Nat.eq_zero_or_pos n with rfl | hpos
      · exact ⟨false, _, .last hno hno' hd⟩
      · exact ⟨true, _, .urc hno hno' hd hpos hn⟩
    cases hflag : s.haveResult with
    | true => exact hurc s.frc (.taken hflag)
    | false =>
      obtain ⟨ok, frc', n, ha, hn⟩ := hresult res' hno hflag
      cases ok with
      | true => exact ⟨true, _, .result hno hflag ha (hn rfl)⟩
      | false => exact hurc frc' (.rejects hflag ha)
  cases hflag : s.haveResponse with
  | true => exact hrest s.res (.taken hflag)
  | false =>
    cases hres : s.res with
    | none => exact hrest none (.absent hres)
    | some res =>
      obtain ⟨ok, res', n, ha, hn⟩ := hresponse res hflag hres
      cases ok with
      | true => exact ⟨true, _, .response hflag hres ha (hn rfl)⟩
      | false => exact hrest (some res') (.rejects hflag hres ha)

/-- The parsers throw nothing and consume at most the text they are given. -/
structure Virtuals.Bounded (V : Virtuals π ρ δ) : Prop where
  result : ∀ frc txt, ∃ ok frc' n, V.acceptResult frc txt = some (ok, frc', n) ∧
    (ok = true → n ≤ txt.length)
  response : ∀ res txt, ∃ ok res' n, V.acceptResponse res txt = some (ok, res', n) ∧
    (ok = true → n ≤ txt.length)
  dispatch : ∀ urcs txt, ∃ n urcs', V.dispatch urcs txt = some (n, urcs') ∧ n ≤ txt.length

theorem Virtuals.Bounded.turn (hV : V.Bounded) (s : RxLoop π ρ δ) : ∃ more s', Turn V s more s' :=
  exists_turn (fun res _ _ => hV.response res s.input) (fun _ _ _ => hV.result s.frc s.input)
    fun _ _ _ _ => hV.dispatch s.urcs s.input

/-- **The loop ends** where the parsers are bounded. -/
theorem Virtuals.Bounded.runs (hV : V.Bounded) (s : RxLoop π ρ δ) : ∃ t, Runs V s t := by
  obtain ⟨more, s', hturn⟩ := hV.turn s
  cases more with
  | false => exact ⟨s', .last hturn⟩
  | true =>
    have := hturn.weight_lt
    obtain ⟨t, ht⟩ := hV.runs s'
    exact ⟨t, .turn hturn ht⟩
termination_by s.weight

end Receive

/-! ## The receive buffer -/

/-- `std::array<char, 512U>`. -/
structure Storage where
  chars : Text
  size : chars.length = storageSize

/-- `rxstorage` and `leftover`. -/
structure RxBuffer where
  rxstorage : Storage
  leftover : Nat

namespace RxBuffer

def init : RxBuffer := ⟨⟨List.replicate storageSize 0, List.length_replicate⟩, 0⟩

/-- `rxbuf[0..leftover)`. -/
def unread (rx : RxBuffer) : Text := rx.rxstorage.chars.take rx.leftover

/-- `deviceIO.read(rxbuf.subspan(leftover))` returning `bytes`, and the text over what is then in
the buffer; `none` where so many bytes do not fit the span. -/
def read (rx : RxBuffer) (bytes : Text) : Option (Storage × Text) :=
  let chars := rx.unread ++ bytes ++ rx.rxstorage.chars.drop (rx.leftover + bytes.length)
  if h : rx.leftover + bytes.length ≤ storageSize then
    some (⟨chars, by
      simp only [chars, unread, List.length_append, List.length_take, List.length_drop,
        rx.rxstorage.size]
      omega⟩, chars.take (rx.leftover + bytes.length))
  else none

/-- The copying loop and `leftover = input.size()`; `input` is the end of the text of `total`
characters that starts the buffer. -/
def keep (rxstorage : Storage) (total : Nat) (input : Text) : RxBuffer :=
  ⟨⟨copyDown (total - input.length) input.length rxstorage.chars, by
    rw [copyDown_length, rxstorage.size]⟩, input.length⟩

end RxBuffer

section Orchestrator

variable {π ρ δ : Type} (V : Virtuals π ρ δ)

/-- What `receive` returns, the buffer, and the locals at the end of the loop. -/
structure Received (π ρ δ : Type) where
  success : Bool
  rx : RxBuffer
  loop : RxLoop π ρ δ

/-- The locals before the first attempt. -/
def RxLoop.start (input : Text) (frc : π) (res : Option ρ) (urcs : δ) : RxLoop π ρ δ :=
  ⟨input, res.isNone, false, frc, res, urcs, []⟩

/-- `Orchestrator::receive`. -/
def receive (rx : RxBuffer) (bytes : Text) (frc : π) (res : Option ρ) (urcs : δ) :
    Option (Except (RxLoop π ρ δ) (Received π ρ δ)) :=
  (rx.read bytes).map fun r =>
    (receiveLoop V (RxLoop.start r.2 frc res urcs)).map fun s =>
      ⟨s.haveResult && s.haveResponse, RxBuffer.keep r.1 r.2.length s.input, s⟩

/-- The `while (0U < n)` of `dispatchAllUrcs`. -/
def dispatchLoop (urcs : δ) (input : Text) (n consumed : Nat) (taken : List Slice) :
    Option (Nat × δ × List Slice) :=
  if 0 < n then
    match _h : substr input n with
    | none => none
    | some rest =>
      match V.dispatch urcs rest with
      | none => none
      | some (n', urcs) => dispatchLoop urcs rest n' (consumed + n') (taken ++ [(.urc, input.take n)])
  else some (consumed, urcs, taken)
termination_by input.length
decreasing_by
  obtain ⟨hn, rfl⟩ := substr_eq_some _h
  rw [List.length_drop]
  omega

/-- `Orchestrator::dispatchAllUrcs`. -/
def dispatchAllUrcs (urcs : δ) (input : Text) : Option (Nat × δ × List Slice) :=
  match V.dispatch urcs input with
  | none => none
  | some (n, urcs) => dispatchLoop V urcs input n n []

/-- `Orchestrator::dispatchUrcs`; `none` is an exception, or more bytes than the span takes. -/
def dispatchUrcs (rx : RxBuffer) (bytes : Text) (urcs : δ) : Option (RxBuffer × δ × List Slice) :=
  match rx.read bytes with
  | none => none
  | some (rxstorage, input) =>
    match dispatchAllUrcs V urcs input with
    | none => none
    | some (consumed, urcs, taken) =>
      (substr input consumed).map fun rest =>
        (RxBuffer.keep rxstorage input.length rest, urcs, taken)

variable {V} {rx : RxBuffer} {bytes : Text} {frc : π} {res : Option ρ} {urcs : δ}

/-- A call of `receive` that returns: a read, a loop and the copying of what is left. -/
theorem receive_ok_iff {r : Received π ρ δ} :
    receive V rx bytes frc res urcs = some (.ok r) ↔ ∃ rxstorage input t,
      rx.read bytes = some (rxstorage, input) ∧
        receiveLoop V (RxLoop.start input frc res urcs) = .ok t ∧
        r = ⟨t.haveResult && t.haveResponse, RxBuffer.keep rxstorage input.length t.input, t⟩ := by
  unfold receive
  constructor
  · intro h
    obtain ⟨⟨rxstorage, input⟩, hread, h⟩ := Option.map_eq_some_iff.1 h
    cases hloop : receiveLoop V (RxLoop.start input frc res urcs) with
    | error s => simp only [hloop, Except.map, reduceCtorEq] at h
    | ok t =>
      simp only [hloop, Except.map, Except.ok.injEq] at h
      exact ⟨rxstorage, input, t, hread, hloop, h.symm⟩
  · rintro ⟨rxstorage, input, t, hread, hloop, rfl⟩
    simp only [hread, Option.map_some, hloop, Except.map]

/-- A call of `dispatchAllUrcs` that returns: a dispatch, and the loop with what it took. -/
theorem dispatchAllUrcs_iff {input : Text} {r : Nat × δ × List Slice} :
    dispatchAllUrcs V urcs input = some r ↔ ∃ n urcs',
      V.dispatch urcs input = some (n, urcs') ∧ dispatchLoop V urcs' input n n [] = some r := by
  unfold dispatchAllUrcs
  cases V.dispatch urcs input with
  | none => simp
  | some d => simp [Prod.ext_iff]

/-- A call of `dispatchUrcs` that returns: a read, the dispatches and the copying of what is left. -/
theorem dispatchUrcs_iff {rx' : RxBuffer} {urcs' : δ} {taken : List Slice} :
    dispatchUrcs V rx bytes urcs = some (rx', urcs', taken) ↔ ∃ rxstorage input m,
      rx.read bytes = some (rxstorage, input) ∧
        dispatchAllUrcs V urcs input = some (m, urcs', taken) ∧ m ≤ input.length ∧
        rx' = RxBuffer.keep rxstorage input.length (input.drop m) := by
  unfold dispatchUrcs
  constructor
  · intro h
    split at h
    · cases h
    · rename_i rxstorage input hread
      split at h
      · cases h
      · rename_i m urcs1 taken1 hall
        obtain ⟨rest, hrest, hpair⟩ := Option.map_eq_some_iff.1 h
        cases hpair
        obtain ⟨hle, rfl⟩ := substr_eq_some hrest
        exact ⟨rxstorage, input, m, hread, hall, hle, rfl⟩
  · rintro ⟨rxstorage, input, m, hread, hall, hle, rfl⟩
    simp only [hread, hall, substr_of_le hle, Option.map_some]

end Orchestrator

end ATLink
