import ATLink.Lines
import ATLink.Receive

/-!
# Unsolicited result codes

Reference model of `core/Urc.h`, with the dispatcher that its tests run.

* `AnyUrc` — the response without a tag that takes any line as it is.
* `Urc` — the pack of known responses with `AnyUrc` behind them.
* `ResponseType.OneLine` — the type takes a whole line or nothing.
* `UrcDispatcher` — the pack a dispatcher parses into.  `dispatched` is not in the source: the
  objects that the pack has held, in order.

Principal results: `UrcDispatcher.dispatch_outcome` — a dispatch takes nothing, or takes a whole
line into the pack; `UrcDispatcher.dispatch_append` — with a whole line on the input, text behind
it does not matter; `AnyUrc.accepts_iff` — `AnyUrc` takes every line that is not empty;
`UrcDispatcher.dispatch_known` and `UrcDispatcher.dispatch_unknown` — what a dispatch takes, whatever
type the known responses have.
-/

namespace ATLink

open StringView Deserializer

/-- `AnyUrc`: no tag, and `LineText payload` over a `std::array<char, 512U>`. -/
def AnyUrc : ResponseType := Response.type [] [.line (List.replicate 512 0)]

/-- `Urc<Rs...>`. -/
def Urc (Rs : List ResponseType) : List ResponseType := Rs ++ [AnyUrc]

/-- A dispatcher over a pack. -/
structure UrcDispatcher (Rs : List ResponseType) where
  pack : ResponsePack.Variant (Urc Rs)
  dispatched : List (Alternative (Urc Rs))

/-- `dispatch`: `consumed()` where the pack accepts, and 0 otherwise. -/
def UrcDispatcher.dispatch {Rs : List ResponseType} (d : UrcDispatcher Rs) (str : Text) :
    Option (Nat × UrcDispatcher Rs) :=
  match ResponsePack.accept (Urc Rs) d.pack str 0 with
  | none => none
  | some (true, pack, consumed) => some (consumed, ⟨pack, d.dispatched ++ pack.toList⟩)
  | some (false, pack, _) => some (0, ⟨pack, d.dispatched⟩)

/-- `AnyUrc` stays on one line. -/
def AnyUrc.response : LineResponse where
  tag := []
  fields := [.line (List.replicate 512 0)]
  tagInLine := List.not_mem_nil
  inLine f hf := by
    rw [List.mem_singleton] at hf
    subst hf
    trivial

theorem urc_map_type (us : List LineResponse) :
    Urc (us.map LineResponse.type) = (us ++ [AnyUrc.response]).map LineResponse.type := by
  rw [List.map_append]
  rfl

/-! ## The trial of responses of one line -/

section Pack

variable {x : Text}

/-- The trial of the type ends; it accepts only an input that holds a whole line, and then text
behind the line does not matter. -/
structure ResponseType.OneLine (R : ResponseType) : Prop where
  outcome : ∀ x, ∃ ok obj n, R.accept R.init x 0 = some (ok, obj, n) ∧
    (ok = true → HasLine x ∧ 0 < n ∧ n ≤ x.length)
  append : ∀ x t, HasLine x → R.accept R.init (x ++ t) 0 = R.accept R.init x 0

theorem LineResponse.oneLine (r : LineResponse) : r.type.OneLine :=
  ⟨r.accept_outcome, fun _ t h => r.accept_append h t⟩

theorem oneLine_map_type (us : List LineResponse) : ∀ R ∈ us.map LineResponse.type, R.OneLine := by
  intro R hR
  obtain ⟨u, -, rfl⟩ := List.mem_map.1 hR
  exact u.oneLine

/-- The trial of such types ends.  It finds something only on an input that holds a whole line, and
takes part of the input. -/
theorem ResponseType.OneLine.tryAll_outcome : ∀ {Rs : List ResponseType}, (∀ R ∈ Rs, R.OneLine) →
    ∀ (x : Text) (length : Nat), ∃ value n, ResponsePack.tryAll Rs x length = some (value, n) ∧
      (value.isSome = true → HasLine x ∧ 0 < n ∧ n ≤ x.length)
  | [], _, _, length => ⟨none, length, rfl, fun h => by cases h⟩
  | R :: Rs, hRs, x, length => by
    obtain ⟨ok, obj, n, haccept, hok⟩ := (hRs R List.mem_cons_self).outcome x
    cases ok with
    | true => exact ⟨_, n, ResponsePack.tryAll_of_accepts haccept length, fun _ => hok rfl⟩
    | false =>
      obtain ⟨value, m, htry, hvalue⟩ := ResponseType.OneLine.tryAll_outcome
        (fun R hR => hRs R (List.mem_cons_of_mem _ hR)) x n
      refine ⟨value.map .later, m, ?_, fun h => hvalue (by rwa [Option.isSome_map] at h)⟩
      rw [ResponsePack.tryAll_of_rejects haccept, htry]
      rfl

/-- With a whole line on the input, text behind it does not matter to such types. -/
theorem ResponseType.OneLine.tryAll_append (h : HasLine x) (t : Text) : ∀ {Rs : List ResponseType},
    (∀ R ∈ Rs, R.OneLine) → ∀ length : Nat,
      ResponsePack.tryAll Rs (x ++ t) length = ResponsePack.tryAll Rs x length
  | [], _, _ => rfl
  | R :: Rs, hRs, length => by
    obtain ⟨ok, obj, n, haccept, -⟩ := (hRs R List.mem_cons_self).outcome x
    have haccept' := ((hRs R List.mem_cons_self).append x t h).trans haccept
    cases ok with
    | true =>
      rw [ResponsePack.tryAll_of_accepts haccept, ResponsePack.tryAll_of_accepts haccept']
    | false =>
      rw [ResponsePack.tryAll_of_rejects haccept, ResponsePack.tryAll_of_rejects haccept',
        ResponseType.OneLine.tryAll_append h t (fun R hR => hRs R (List.mem_cons_of_mem _ hR)) n]

end Pack

/-! ## The dispatcher -/

namespace UrcDispatcher

variable {Rs : List ResponseType} {x : Text}

/-- `AnyUrc` behind types of one line. -/
theorem urc_oneLine (hRs : ∀ R ∈ Rs, R.OneLine) : ∀ R ∈ Urc Rs, R.OneLine := by
  intro R hR
  rcases List.mem_append.1 hR with hmem | hmem
  · exact hRs R hmem
  · obtain rfl := List.mem_singleton.1 hmem
    exact AnyUrc.response.oneLine

/-- **One dispatch** over types of one line: nothing is taken and the dispatcher stays as it is, or a
whole line is taken and its object is the pack's value. -/
theorem dispatch_outcome (hRs : ∀ R ∈ Rs, R.OneLine) (d : UrcDispatcher Rs) (x : Text) :
    d.dispatch x = some (0, d) ∨
      ∃ value n, d.dispatch x = some (n, ⟨some value, d.dispatched ++ [value]⟩) ∧ HasLine x ∧
        0 < n ∧ n ≤ x.length := by
  obtain ⟨value, n, htry, hvalue⟩ := ResponseType.OneLine.tryAll_outcome (urc_oneLine hRs) x 0
  unfold dispatch ResponsePack.accept
  rw [htry]
  cases value with
  | none => exact Or.inl rfl
  | some value => exact Or.inr ⟨value, n, rfl, hvalue rfl⟩

/-- **Text behind a whole line does not matter** to such a dispatch. -/
theorem dispatch_append (hRs : ∀ R ∈ Rs, R.OneLine) (d : UrcDispatcher Rs) (h : HasLine x) (t : Text) :
    d.dispatch (x ++ t) = d.dispatch x := by
  unfold dispatch ResponsePack.accept
  rw [ResponseType.OneLine.tryAll_append h t (urc_oneLine hRs)]

end UrcDispatcher

/-! ## The fallback -/

/-- A line that is not empty is ended behind the head. -/
def HeadLine (x : Text) : Prop := HasLine x ∧ ¬ Constants.CrLf <+: body x

/-- **What `AnyUrc` takes**: of a text that fits its storage, every line that is not empty. -/
theorem AnyUrc.accepts_iff {x : Text} (hlen : x.length ≤ 512) :
    ResponsePack.Accepts AnyUrc x ↔ HeadLine x := by
  have hsplit : x = x.take (lead x) ++ body x := (List.take_append_drop (lead x) x).symm
  have hlead : (x.take (lead x)).length = lead x := List.length_take_of_le (lead_le x)
  have hbody : (body x).length ≤ 512 := by
    have := congrArg List.length hsplit
    rw [List.length_append] at this
    omega
  have houtcome : ∀ {l z}, body x = l ++ z → Unbroken l → EndsLine z →
      (ResponsePack.Accepts AnyUrc x ↔ l ≠ [] ∧ z ≠ []) := by
    intro l z heq hl hz
    have hfit : l.length ≤ (List.replicate 512 (0 : Byte)).length := by
      rw [heq, List.length_append] at hbody
      rw [List.length_replicate]
      omega
    have hstorage : List.replicate 512 (0 : Byte) ≠ [] := List.cons_ne_nil 0 (List.replicate 511 0)
    obtain ⟨ok, fs, n, haccept, hok, -⟩ := acceptWithTerm_lineText (x.take (lead x)) hl hz hstorage
    rw [← heq, ← hsplit, hlead, ← acceptImpl_eq] at haccept
    have haccept : AnyUrc.accept AnyUrc.init x 0 = some (ok, fs, n) := haccept
    -- nothing is cut off
    have hfits : LineFits (List.replicate 512 0) l ↔ l ≠ [] := by
      refine ⟨And.left, fun hne => ⟨hne, hl, ?_⟩⟩
      rw [List.drop_eq_nil_of_le hfit]
      exact Blanks.nil
    rw [← hfits, ← hok]
    constructor
    · rintro ⟨fs', n', haccept'⟩
      rw [haccept] at haccept'
      cases haccept'
      rfl
    · rintro rfl
      exact ⟨fs, n, haccept⟩
  by_cases h : HasLine x
  · obtain ⟨l, y, heq, hl⟩ := exists_line h
    have hne := crLf_append_ne_nil y
    rw [houtcome heq hl (endsLine_crLf y), HeadLine, heq, crLf_prefix_line_iff hl]
    tauto
  · have hend := houtcome (l := body x) (z := []) (List.append_nil _).symm h (Or.inl rfl)
    exact iff_of_false (fun ha => (hend.1 ha).2 rfl) fun hhead => h hhead.1

/-! ## Known responses of any type -/

namespace UrcDispatcher

open ResponsePack

variable {Rs : List ResponseType} {x : Text} {n : Nat}

/-- A dispatch takes what the first known response to accept consumes. -/
theorem dispatch_known (d : UrcDispatcher Rs) {obj : Alternative Rs}
    (h : FirstMatch x Rs obj n) : ∃ d', d.dispatch x = some (n, d') := by
  unfold dispatch ResponsePack.accept Urc
  rw [tryAll_concat, (tryAll_eq_match_iff 0).2 h]
  exact ⟨_, rfl⟩

/-- Where all of them refuse, it is left to `AnyUrc`. -/
theorem dispatch_unknown (d : UrcDispatcher Rs) (hlen : x.length ≤ 512) (h : ∀ R ∈ Rs, Rejects R x) :
    ¬ HeadLine x ∧ d.dispatch x = some (0, d) ∨
      HeadLine x ∧ ∃ n fs d', AnyUrc.accept AnyUrc.init x 0 = some (true, fs, n) ∧
        d.dispatch x = some (n, d') ∧ 0 < n ∧ n ≤ x.length := by
  obtain ⟨m, hnone⟩ := (exists_tryAll_none_iff 0).2 h
  obtain ⟨ok, fs, n, haccept, hok⟩ := AnyUrc.response.accept_outcome x
  have haccept : AnyUrc.accept AnyUrc.init x 0 = some (ok, fs, n) := haccept
  have haccepts := (decides_of_accept haccept).2
  rw [AnyUrc.accepts_iff hlen] at haccepts
  cases ok with
  | false =>
    refine Or.inl ⟨fun hhead => Bool.false_ne_true (haccepts.1 hhead), ?_⟩
    unfold dispatch ResponsePack.accept Urc
    rw [tryAll_concat, hnone]
    simp only [tryAll_of_rejects haccept]
    rfl
  | true =>
    have hd : ∃ d', d.dispatch x = some (n, d') := by
      unfold dispatch ResponsePack.accept Urc
      rw [tryAll_concat, hnone]
      simp only [tryAll_of_accepts haccept]
      exact ⟨_, rfl⟩
    obtain ⟨d', hd⟩ := hd
    obtain ⟨-, hpos, hle⟩ := hok rfl
    exact Or.inr ⟨haccepts.2 rfl, n, fs, d', haccept, hd, hpos, hle⟩

/-- A dispatch that returns has come to one of the two. -/
theorem dispatch_decides {d d' : UrcDispatcher Rs} (h : d.dispatch x = some (n, d')) :
    (∃ obj, FirstMatch x Rs obj n) ∨ ∀ R ∈ Rs, Rejects R x := by
  unfold dispatch ResponsePack.accept Urc at h
  rw [tryAll_concat] at h
  cases htry : tryAll Rs x 0 with
  | none =>
    rw [htry] at h
    cases h
  | some r =>
    obtain ⟨value, m⟩ := r
    cases value with
    | none => exact Or.inr ((exists_tryAll_none_iff 0).1 ⟨m, htry⟩)
    | some obj =>
      rw [htry] at h
      cases h
      exact Or.inl ⟨obj, (tryAll_eq_match_iff 0).1 htry⟩

end UrcDispatcher

end ATLink
