import ATLink.Conservation
import ATLink.Lib.Reader
import ATLink.Urc

/-!
# URCs that arrive in fragments

* `urcReader` — `dispatchUrcs` as a reader of a stream; its progress is the dispatcher.
* `Quiet` — a dispatcher that takes nothing stays as it is.
* `Dispatches` — the dispatches that a call makes, by any dispatcher.

Principal results: `dispatchUrcs_of_dispatches` and `dispatches_of_dispatchUrcs` — a call of
`dispatchUrcs` makes these on what is unread and the bytes it gets; `urc_fragments_equivalent` —
with a dispatcher over responses of one line the bytes may be cut anywhere.
-/

namespace ATLink

open StringView FragmentReader LabelledRun

section Reading

variable {π ρ δ : Type} {V : Virtuals π ρ δ} {urcs urcs' q : δ} {x y : Text} {n : Nat}

variable (V) in
/-- The dispatching loop on a text: a step is a dispatch that takes something. -/
def urcReader : Reader Byte δ where
  step urcs x :=
    match V.dispatch urcs x with
    | none => .throws
    | some (0, _) => .rejects
    | some (n + 1, urcs') => (Verdict.accepts urcs' (n + 1)).within x.length
  complete _ := False
  fits h := by
    split at h
    · cases h
    · cases h
    · obtain ⟨heq, hle⟩ := Verdict.within_eq_accepts.1 h
      cases heq
      exact hle
  keeps h := h.elim

variable (V) in
/-- A dispatcher that takes nothing stays as it is. -/
def Quiet : Prop := ∀ urcs x urcs', V.dispatch urcs x = some (0, urcs') → urcs' = urcs

theorem urcReader_accepts_iff : (urcReader V).step urcs x = .accepts urcs' n ↔
    V.dispatch urcs x = some (n, urcs') ∧ 0 < n ∧ n ≤ x.length := by
  simp only [urcReader]
  constructor
  · intro h
    split at h
    · cases h
    · cases h
    · rename_i m d hd
      obtain ⟨heq, hle⟩ := Verdict.within_eq_accepts.1 h
      cases heq
      exact ⟨hd, Nat.succ_pos m, hle⟩
  · rintro ⟨hd, hpos, hle⟩
    rw [hd]
    cases n with
    | zero => omega
    | succ m => exact Verdict.within_eq_accepts.2 ⟨rfl, hle⟩

theorem urcReader_rejects_iff (hquiet : Quiet V) : (urcReader V).step urcs x = .rejects ↔
    V.dispatch urcs x = some (0, urcs) := by
  simp only [urcReader]
  constructor
  · intro h
    split at h
    · cases h
    · rename_i d hd
      rw [hd, hquiet _ _ _ hd]
    · rw [Verdict.within_eq_rejects] at h
      cases h
  · intro hd
    rw [hd]

/-- One round of the loop: what the dispatch before it took is dropped, and the next one is made. -/
theorem dispatchLoop_next {m consumed : Nat} {taken : List Slice} (hpos : 0 < n)
    (hle : n ≤ x.length) (hd : V.dispatch urcs (x.drop n) = some (m, urcs')) :
    dispatchLoop V urcs x n consumed taken =
      dispatchLoop V urcs' (x.drop n) m (consumed + m) (taken ++ [(.urc, x.take n)]) := by
  conv_lhs => rw [dispatchLoop, if_pos hpos]
  split
  · rename_i hsub
    rw [substr_of_le hle] at hsub
    cases hsub
  · rename_i rest hsub
    rw [substr_of_le hle] at hsub
    cases hsub
    rw [hd]

variable (V) in
/-- The dispatches that a call makes: each takes part of what is there, until one takes nothing. -/
inductive Dispatches : δ → Text → δ → Text → Prop where
  | done {urcs urcs' : δ} {x : Text} : V.dispatch urcs x = some (0, urcs') →
      Dispatches urcs x urcs' x
  | next {urcs urcs' q : δ} {x y : Text} {n : Nat} : V.dispatch urcs x = some (n, urcs') → 0 < n →
      n ≤ x.length → Dispatches urcs' (x.drop n) q y → Dispatches urcs x q y

theorem Dispatches.suffix (h : Dispatches V urcs x q y) : y <:+ x := by
  induction h with
  | done => exact List.suffix_refl _
  | next _ _ _ _ ih => exact ih.trans (List.drop_suffix _ _)

theorem Dispatches.unique {q' : δ} {y' : Text} (h : Dispatches V urcs x q y)
    (h' : Dispatches V urcs x q' y') : q = q' ∧ y = y' := by
  induction h with
  | done hd =>
    cases h' with
    | done hd' =>
      rw [hd] at hd'
      cases hd'
      exact ⟨rfl, rfl⟩
    | next hd' hpos =>
      rw [hd] at hd'
      cases hd'
      exact absurd hpos (Nat.lt_irrefl 0)
  | next hd hpos _ _ ih =>
    cases h' with
    | done hd' =>
      rw [hd] at hd'
      cases hd'
      exact absurd hpos (Nat.lt_irrefl 0)
    | next hd' _ _ hrest =>
      rw [hd] at hd'
      cases hd'
      exact ih hrest

/-- The steps of a reading are such dispatches. -/
theorem Dispatches.of_reads (hquiet : Quiet V) (h : (urcReader V).Reads urcs x q y) :
    Dispatches V urcs x q y := by
  induction h with
  | done hreject => exact .done ((urcReader_rejects_iff hquiet).1 hreject)
  | next hstep _ ih =>
    obtain ⟨hd, hpos, hle⟩ := urcReader_accepts_iff.1 hstep
    exact .next hd hpos hle ih

/-- The loop, once the first dispatch is made, makes the other ones; it adds what they take to what
is consumed so far. -/
theorem dispatchLoop_of_dispatches (h : Dispatches V urcs x q y) :
    ∃ n urcs', V.dispatch urcs x = some (n, urcs') ∧ ∀ consumed taken, ∃ taken',
      dispatchLoop V urcs' x n (consumed + n) taken =
        some (consumed + (x.length - y.length), q, taken') := by
  induction h with
  | @done urcs urcs' x hd =>
    refine ⟨0, urcs', hd, fun consumed taken => ⟨taken, ?_⟩⟩
    rw [dispatchLoop, if_neg (Nat.lt_irrefl 0), Nat.sub_self]
  | @next urcs urcs' q x y n hd hpos hle hrest ih =>
    obtain ⟨m, urcs1, hd1, hloop⟩ := ih
    refine ⟨n, urcs', hd, fun consumed taken => ?_⟩
    obtain ⟨taken', htaken⟩ := hloop (consumed + n) (taken ++ [(.urc, x.take n)])
    refine ⟨taken', ?_⟩
    have hlen := hrest.suffix.length_le
    rw [List.length_drop] at hlen htaken
    have hsum : consumed + (x.length - y.length) = consumed + n + (x.length - n - y.length) := by
      omega
    rw [dispatchLoop_next hpos hle hd1, hsum]
    exact htaken

/-- The loop makes no other dispatches. -/
theorem dispatches_of_dispatchLoop {n consumed m : Nat} {taken taken' : List Slice}
    (h : dispatchLoop V urcs x n consumed taken = some (m, q, taken')) {p : δ}
    (hd : V.dispatch p x = some (n, urcs)) :
    ∃ y, Dispatches V p x q y ∧ m + y.length + n = consumed + x.length := by
  fun_induction dispatchLoop V urcs x n consumed taken generalizing p with
  | case1 => cases h
  | case2 => cases h
  | case3 urcs x n consumed taken hpos rest hsub n' urcs1 hd1 ih =>
    obtain ⟨hle, rfl⟩ := substr_eq_some hsub
    obtain ⟨y, hrest, hsum⟩ := ih h hd1
    refine ⟨y, .next hd hpos hle hrest, ?_⟩
    rw [List.length_drop] at hsum
    omega
  | case4 urcs x n consumed taken hpos =>
    cases h
    obtain rfl : n = 0 := by omega
    exact ⟨x, .done hd, rfl⟩

/-- **A call of `dispatchUrcs` makes such dispatches** on what is unread and the bytes it gets. -/
theorem dispatchUrcs_of_dispatches {rx : RxBuffer} {bytes : Text}
    (hfit : rx.leftover + bytes.length ≤ storageSize)
    (h : Dispatches V urcs (rx.unread ++ bytes) q y) :
    ∃ rx' taken, dispatchUrcs V rx bytes urcs = some (rx', q, taken) ∧ rx'.unread = y ∧
      rx'.leftover = y.length := by
  obtain ⟨⟨rxstorage, input⟩, hread⟩ := rx.exists_read hfit
  obtain ⟨hinput, htake⟩ := RxBuffer.read_eq (by omega) hread
  rw [← hinput] at h
  obtain ⟨n, urcs', hd, hloop⟩ := dispatchLoop_of_dispatches h
  obtain ⟨taken, htaken⟩ := hloop 0 []
  rw [Nat.zero_add, Nat.zero_add] at htaken
  have hall : dispatchAllUrcs V urcs input = some (input.length - y.length, q, taken) :=
    dispatchAllUrcs_iff.2 ⟨n, urcs', hd, htaken⟩
  have hdrop : y = input.drop (input.length - y.length) := List.suffix_iff_eq_drop.1 h.suffix
  refine ⟨RxBuffer.keep rxstorage input.length y, taken, ?_, ?_, rfl⟩
  · exact dispatchUrcs_iff.2 ⟨rxstorage, input, _, hread, hall, Nat.sub_le _ _,
      congrArg (RxBuffer.keep rxstorage input.length) hdrop⟩
  · obtain ⟨front, hfront⟩ := h.suffix
    rw [← hfront] at htake ⊢
    exact RxBuffer.unread_keep htake

/-- A call that returns has made them. -/
theorem dispatches_of_dispatchUrcs {rx rx' : RxBuffer} {bytes : Text} {taken : List Slice}
    (hle : rx.leftover ≤ storageSize) (h : dispatchUrcs V rx bytes urcs = some (rx', q, taken)) :
    Dispatches V urcs (rx.unread ++ bytes) q rx'.unread := by
  obtain ⟨rxstorage, input, m, hread, hall, -, rfl⟩ := dispatchUrcs_iff.1 h
  obtain ⟨hinput, htake⟩ := RxBuffer.read_eq hle hread
  rw [← hinput]
  obtain ⟨n, urcs1, hd, hloop⟩ := dispatchAllUrcs_iff.1 hall
  obtain ⟨y, hy, hsum⟩ := dispatches_of_dispatchLoop hloop hd
  -- what is cut off is as long as what the dispatches take
  have hcut : y = input.drop m := by
    rw [List.suffix_iff_eq_drop.1 hy.suffix]
    congr 1
    omega
  obtain ⟨front, hfront⟩ := hy.suffix
  have hunread : (RxBuffer.keep rxstorage input.length y).unread = y := by
    rw [← hfront] at htake ⊢
    exact RxBuffer.unread_keep htake
  rw [← hcut, hunread]
  exact hy

/-- For a quiet dispatcher a call is a reading of what is unread and the bytes it gets. -/
theorem dispatchUrcs_of_reads {rx : RxBuffer} {bytes : Text} (hquiet : Quiet V)
    (hfit : rx.leftover + bytes.length ≤ storageSize)
    (h : (urcReader V).Reads urcs (rx.unread ++ bytes) q y) :
    ∃ rx' taken, dispatchUrcs V rx bytes urcs = some (rx', q, taken) ∧ rx'.unread = y ∧
      rx'.leftover = y.length :=
  dispatchUrcs_of_dispatches hfit (.of_reads hquiet h)

/-- Calls of `dispatchUrcs` with the fragments feed them to the reader. -/
theorem run_dispatchUrcs_feeds (hquiet : Quiet V)
    (hnext : ∀ urcs x, (urcReader V).step urcs x = .rejects ∨
      ∃ urcs' n, (urcReader V).step urcs x = .accepts urcs' n ∧ 0 < n) :
    ∀ (cs : List Text) (h : History δ), h.rx.leftover + cs.flatten.length ≤ storageSize →
      ∃ h', run (rxCall V) (cs.map RxCall.dispatchUrcs) h = some h' ∧
        (urcReader V).Feeds h.urcs h.rx.unread cs h'.urcs h'.rx.unread
  | [], h, _ => ⟨h, rfl, .nil⟩
  | c :: cs, h, hfit => by
    rw [List.flatten_cons, List.length_append] at hfit
    obtain ⟨q, y, hread⟩ := Reader.exists_reads hnext h.urcs (h.rx.unread ++ c)
    obtain ⟨rx', taken, hcall, hunread, hleftover⟩ := dispatchUrcs_of_reads hquiet (by omega) hread
    have hy : y.length ≤ h.rx.leftover + c.length := by
      have hlen := hread.suffix.length_le
      rw [List.length_append, h.rx.unread_length (by omega)] at hlen
      exact hlen
    have hstep : rxCall V h (.dispatchUrcs c) = some ⟨rx', q, h.read ++ c, h.taken ++ taken⟩ := by
      rw [rxCall, hcall, Option.map_some]
    obtain ⟨h', hrun, hfeeds⟩ := run_dispatchUrcs_feeds hquiet hnext cs
      ⟨rx', q, h.read ++ c, h.taken ++ taken⟩ (by simp only [hleftover]; omega)
    refine ⟨h', ?_, .cons hread (hunread ▸ hfeeds)⟩
    rw [List.map_cons, run_cons, hstep, Option.bind_some]
    exact hrun

end Reading

/-! ## The dispatcher of a pack -/

section Dispatcher

variable {π ρ : Type} (acceptResult : π → Text → Option (Bool × π × Nat))
  (acceptResponse : ρ → Text → Option (Bool × ρ × Nat)) (us : List LineResponse)

/-- Virtual functions with a dispatcher over `Urc` of the known URCs `Rs`. -/
def packVirtuals (Rs : List ResponseType) : Virtuals π ρ (UrcDispatcher Rs) :=
  ⟨acceptResult, acceptResponse, UrcDispatcher.dispatch⟩

/-- They are responses of one line. -/
def urcVirtuals : Virtuals π ρ (UrcDispatcher (us.map LineResponse.type)) :=
  packVirtuals acceptResult acceptResponse (us.map LineResponse.type)

theorem urcVirtuals_quiet : Quiet (urcVirtuals acceptResult acceptResponse us) := by
  intro d x d' hd
  have hd : d.dispatch x = some (0, d') := hd
  rcases d.dispatch_outcome (oneLine_map_type us) x with h | ⟨value, n, h, -, hpos, -⟩
  · rw [h] at hd
    cases hd
    rfl
  · rw [h] at hd
    cases hd
    exact absurd hpos (Nat.lt_irrefl 0)

/-- A step takes nothing or a whole line, never more than is there. -/
theorem urcVirtuals_next (d : UrcDispatcher (us.map LineResponse.type)) (x : Text) :
    (urcReader (urcVirtuals acceptResult acceptResponse us)).step d x = .rejects ∨
      ∃ d' n, (urcReader (urcVirtuals acceptResult acceptResponse us)).step d x = .accepts d' n ∧
        0 < n := by
  rcases d.dispatch_outcome (oneLine_map_type us) x with h | ⟨value, n, h, -, hpos, hle⟩
  · exact Or.inl ((urcReader_rejects_iff (urcVirtuals_quiet _ _ us)).2 h)
  · exact Or.inr ⟨_, n, urcReader_accepts_iff.2 ⟨h, hpos, hle⟩, hpos⟩

/-- What is taken is taken with any text behind it: it ends with the line it holds. -/
theorem urcVirtuals_stable :
    (urcReader (urcVirtuals acceptResult acceptResponse us)).Stable := by
  intro d d' x n t hstep
  obtain ⟨hd, hpos, hle⟩ := urcReader_accepts_iff.1 hstep
  have hd : d.dispatch x = some (n, d') := hd
  refine urcReader_accepts_iff.2 ⟨?_, hpos, ?_⟩
  · show d.dispatch (x ++ t) = some (n, d')
    rcases d.dispatch_outcome (oneLine_map_type us) x with h | ⟨value, m, h, hline, -, -⟩
    · rw [h] at hd
      cases hd
      exact absurd hpos (Nat.lt_irrefl 0)
    · rw [d.dispatch_append (oneLine_map_type us) hline t, hd]
  · rw [List.length_append]
    omega

/-- **Fragmentation independence of URCs**: from an empty buffer, consecutive calls of
`dispatchUrcs` with the fragments of a text leave the same dispatcher, with the same URCs
dispatched, and the same bytes in the buffer as one call with the whole text. -/
theorem urc_fragments_equivalent (h : History (UrcDispatcher (us.map LineResponse.type)))
    (hempty : h.rx.leftover = 0) (cs : List Text) (hlen : cs.flatten.length ≤ storageSize) :
    ∃ parts whole,
      run (rxCall (urcVirtuals acceptResult acceptResponse us)) (cs.map RxCall.dispatchUrcs) h =
          some parts ∧
        rxCall (urcVirtuals acceptResult acceptResponse us) h (.dispatchUrcs cs.flatten) =
          some whole ∧
        parts.urcs = whole.urcs ∧ parts.rx.unread = whole.rx.unread := by
  have hquiet := urcVirtuals_quiet acceptResult acceptResponse us
  have hnext := urcVirtuals_next acceptResult acceptResponse us
  have hunread : h.rx.unread = [] := by rw [RxBuffer.unread, hempty, List.take_zero]
  -- nothing is taken from the empty buffer
  have hstart : (urcReader (urcVirtuals acceptResult acceptResponse us)).step h.urcs [] =
      .rejects := by
    rcases hnext h.urcs [] with hreject | ⟨d, n, hstep, hpos⟩
    · exact hreject
    · have hfits := (urcReader (urcVirtuals acceptResult acceptResponse us)).fits hstep
      exact absurd hpos (Nat.not_lt.2 hfits)
  obtain ⟨parts, hparts, hfeeds⟩ := run_dispatchUrcs_feeds hquiet hnext cs h (by omega)
  obtain ⟨q, y, hread⟩ := Reader.exists_reads hnext h.urcs (h.rx.unread ++ cs.flatten)
  obtain ⟨rx', taken, hcall, hy, -⟩ := dispatchUrcs_of_reads hquiet (by omega) hread
  rw [hunread] at hfeeds hread
  obtain ⟨hurcs, hrest⟩ :=
    (hfeeds.reads (urcVirtuals_stable acceptResult acceptResponse us) hstart).unique hread
  refine ⟨parts, ⟨rx', q, h.read ++ cs.flatten, h.taken ++ taken⟩, hparts, ?_, hurcs, ?_⟩
  · rw [rxCall, hcall, Option.map_some]
  · rw [hrest, hy]

end Dispatcher

/-- `+FOO: <int>`, the URC of the tests. -/
def fooUrc : LineResponse where
  tag := text "+FOO:"
  fields := [.int 0]
  tagInLine := by decide
  inLine f hf := by
    rw [List.mem_singleton] at hf
    subst hf
    trivial

/-- Cuts inside the CRLF, the tag and the number. -/
theorem urc_fragments_equivalent_foo :
    ∃ parts whole,
      run (rxCall (urcVirtuals (fun (u : Unit) _ => some (false, u, 0))
          (fun (u : Unit) _ => some (false, u, 0)) [fooUrc]))
          ([text "\r", text "\n+FO", text "O: 12", text "3\r\nRING\r", text "\nTA"].map
            RxCall.dispatchUrcs) (History.init ⟨none, []⟩) = some parts ∧
        rxCall (urcVirtuals (fun (u : Unit) _ => some (false, u, 0))
          (fun (u : Unit) _ => some (false, u, 0)) [fooUrc]) (History.init ⟨none, []⟩)
          (.dispatchUrcs
            [text "\r", text "\n+FO", text "O: 12", text "3\r\nRING\r", text "\nTA"].flatten) =
          some whole ∧
        parts.urcs = whole.urcs ∧ parts.rx.unread = whole.rx.unread :=
  urc_fragments_equivalent _ _ [fooUrc] (History.init ⟨none, []⟩) rfl _ (by decide)

end ATLink
