import ATLink.Packet

/-!
# Packs of responses

Reference model of `core/ResponsePack.h`, `core/FinalResultCode.h` and the responses of
`protocols/standard` that a final result code is made of.

* `ResponseType` — a class derived from `Response`, as the pack uses it: its objects, the
  default-constructed one, and `accept`.
* `ResponsePack.tryAll` / `ResponsePack.accept` — the trial of the alternatives in order, each
  on a fresh object from the start of the input.
* `Ok`, `Error`, `CmsError`, `CmeError`, `FinalResultCode`.

Principal results: `tryAll_of_accepts` and `tryAll_of_rejects` — what one alternative at the
head decides; `tryAll_isSome_iff` — when the trial finds a match; `accept_ordered` — which match the
pack holds, and that it keeps its value where there is none.
-/

namespace ATLink

/-- A class derived from `Response`.  `accept` takes the input and the cursor of the
deserializer; `none` is an exception. -/
structure ResponseType where
  Obj : Type
  init : Obj
  accept : Obj → Text → Nat → Option (Bool × Obj × Nat)

/-- An object of one of the types. -/
def Alternative : List ResponseType → Type
  | [] => Empty
  | R :: Rs => R.Obj ⊕ Alternative Rs

/-- An object of the first type. -/
def Alternative.first {R : ResponseType} {Rs : List ResponseType} (obj : R.Obj) :
    Alternative (R :: Rs) := Sum.inl obj

/-- An object of a later type. -/
def Alternative.later {R : ResponseType} {Rs : List ResponseType} (obj : Alternative Rs) :
    Alternative (R :: Rs) := Sum.inr obj

namespace ResponsePack

/-- `std::variant<std::monostate, Rs...>`. -/
abbrev Variant (Rs : List ResponseType) : Type := Option (Alternative Rs)

/-- `tryAll`; the candidate that matches, with the cursor it leaves. -/
def tryAll : (Rs : List ResponseType) → Text → Nat → Option (Variant Rs × Nat)
  | [], _, length => some (none, length)
  | R :: Rs, input, _ =>
    match R.accept R.init input 0 with
    | none => none
    | some (true, candidate, length) => some (some (.first candidate), length)
    | some (false, _, length) =>
      (tryAll Rs input length).map fun r => (r.1.map .later, r.2)

/-- `ResponsePack::accept`; without a match the value is kept. -/
def accept (Rs : List ResponseType) (value : Variant Rs) (input : Text) (length : Nat) :
    Option (Bool × Variant Rs × Nat) :=
  (tryAll Rs input length).map fun r => (r.1.isSome, r.1.or value, r.2)

theorem tryAll_of_accepts {R : ResponseType} {Rs : List ResponseType} {input : Text}
    {candidate : R.Obj} {length' : Nat} (h : R.accept R.init input 0 = some (true, candidate, length'))
    (length : Nat) : tryAll (R :: Rs) input length = some (some (.first candidate), length') := by
  rw [tryAll, h]

/-- A failed attempt leaves the decision to the other alternatives. -/
theorem tryAll_of_rejects {R : ResponseType} {Rs : List ResponseType} {input : Text}
    {candidate : R.Obj} {length' : Nat} (h : R.accept R.init input 0 = some (false, candidate, length'))
    (length : Nat) : tryAll (R :: Rs) input length =
      (tryAll Rs input length').map fun r => (r.1.map .later, r.2) := by
  rw [tryAll, h]

/-- An object of the first of two lists of types. -/
def left : {Rs : List ResponseType} → (Ss : List ResponseType) → Alternative Rs →
    Alternative (Rs ++ Ss)
  | _ :: _, _, Sum.inl obj => Alternative.first obj
  | _ :: _, Ss, Sum.inr obj => Alternative.later (left Ss obj)

/-- An object of the second of two lists of types. -/
def right : (Rs : List ResponseType) → {Ss : List ResponseType} → Alternative Ss →
    Alternative (Rs ++ Ss)
  | [], _, obj => obj
  | _ :: Rs, _, obj => Alternative.later (right Rs obj)

/-- The second list is tried where the first one finds nothing. -/
theorem tryAll_concat (input : Text) : ∀ (Rs Ss : List ResponseType) (length : Nat),
    tryAll (Rs ++ Ss) input length =
      match tryAll Rs input length with
      | none => none
      | some (some obj, length) => some (some (left Ss obj), length)
      | some (none, length) => (tryAll Ss input length).map fun r => (r.1.map (right Rs), r.2)
  | [], Ss, length => by
    show tryAll Ss input length = (tryAll Ss input length).map fun r => (r.1.map (right []), r.2)
    have hid : (right [] : Alternative Ss → Alternative Ss) = id := rfl
    simp [hid]
  | R :: Rs, Ss, length => by
    have hcons : tryAll (R :: Rs ++ Ss) input length =
        tryAll (R :: (Rs ++ Ss)) input length := rfl
    rw [hcons, tryAll, tryAll]
    cases R.accept R.init input 0 with
    | none => rfl
    | some r =>
      obtain ⟨ok, candidate, n⟩ := r
      cases ok with
      | true => rfl
      | false =>
        simp only [tryAll_concat input Rs Ss n]
        cases tryAll Rs input n with
        | none => rfl
        | some r =>
          obtain ⟨value, m⟩ := r
          cases value with
          | some obj => rfl
          | none =>
            simp only [Option.map_some, Option.map_none, Option.map_map]
            congr 1
            funext r
            exact Prod.ext (Option.map_map ..) rfl

/-- The type matches the start of the input, from a fresh object. -/
def Accepts (R : ResponseType) (input : Text) : Prop :=
  ∃ candidate length, R.accept R.init input 0 = some (true, candidate, length)

/-- The trial of a type ends without an exception. -/
def Decides (R : ResponseType) (input : Text) : Prop :=
  ∃ ok candidate length, R.accept R.init input 0 = some (ok, candidate, length)

/-- One trial of a type tells whether it throws, and whether it accepts. -/
theorem decides_of_accept {R : ResponseType} {input : Text} {ok : Bool} {candidate : R.Obj}
    {length : Nat} (h : R.accept R.init input 0 = some (ok, candidate, length)) :
    Decides R input ∧ (Accepts R input ↔ ok = true) := by
  refine ⟨⟨ok, candidate, length, h⟩, ?_, ?_⟩
  · rintro ⟨candidate', length', h'⟩
    rw [h] at h'
    cases h'
    rfl
  · rintro rfl
    exact ⟨candidate, length, h⟩

/-- Where no alternative throws, the trial finds a match exactly when one of them matches. -/
theorem tryAll_isSome_iff {input : Text} :
    ∀ {Rs : List ResponseType}, (∀ R ∈ Rs, Decides R input) → ∀ length,
      ∃ value length', tryAll Rs input length = some (value, length') ∧
        (value.isSome = true ↔ ∃ R ∈ Rs, Accepts R input)
  | [], _, length => ⟨none, length, rfl, by simp⟩
  | R :: Rs, h, length => by
    obtain ⟨ok, candidate, length1, hR⟩ := h R (by simp)
    cases ok with
    | true =>
      refine ⟨some (.first candidate), length1, tryAll_of_accepts hR length, ?_⟩
      exact iff_of_true rfl ⟨R, by simp, candidate, length1, hR⟩
    | false =>
      have hno : ¬ Accepts R input := by
        rintro ⟨c, n, hc⟩
        rw [hR] at hc
        cases hc
      obtain ⟨value, length2, hv, hiff⟩ :=
        tryAll_isSome_iff (fun R' hR' => h R' (List.mem_cons_of_mem R hR')) length1
      refine ⟨value.map .later, length2, by rw [tryAll_of_rejects hR, hv]; rfl, ?_⟩
      rw [Option.isSome_map, hiff, List.exists_mem_cons_iff]
      exact ⟨Or.inr, fun h => h.resolve_left hno⟩

/-! ## Ordered choice -/

/-- The type refuses the input, from a fresh object. -/
def Rejects (R : ResponseType) (input : Text) : Prop :=
  ∃ candidate length, R.accept R.init input 0 = some (false, candidate, length)

/-- The object that the first type to accept has parsed, and what this type alone consumes. -/
inductive FirstMatch (input : Text) : (Rs : List ResponseType) → Alternative Rs → Nat → Prop where
  | here {R : ResponseType} {Rs : List ResponseType} {candidate : R.Obj} {length : Nat} :
      R.accept R.init input 0 = some (true, candidate, length) →
      FirstMatch input (R :: Rs) (.first candidate) length
  | later {R : ResponseType} {Rs : List ResponseType} {obj : Alternative Rs} {length : Nat} :
      Rejects R input → FirstMatch input Rs obj length →
      FirstMatch input (R :: Rs) (.later obj) length

theorem decides_cases {R : ResponseType} {input : Text} (h : Decides R input) :
    Accepts R input ∨ Rejects R input := by
  obtain ⟨ok, candidate, length, h⟩ := h
  cases ok with
  | true => exact Or.inl ⟨candidate, length, h⟩
  | false => exact Or.inr ⟨candidate, length, h⟩

/-- The trial finds the first match, wherever the cursor stood. -/
theorem tryAll_eq_match_iff {input : Text} : ∀ {Rs : List ResponseType} {obj : Alternative Rs}
    {n : Nat} (length : Nat), tryAll Rs input length = some (some obj, n) ↔ FirstMatch input Rs obj n
  | [], obj, _, _ => nomatch obj
  | R :: Rs, obj, n, length => by
    rw [tryAll]
    constructor
    · intro h
      split at h
      · cases h
      · rename_i candidate length' hR
        cases h
        exact .here hR
      · rename_i candidate length' hR
        obtain ⟨⟨value, m⟩, htry, hpair⟩ := Option.map_eq_some_iff.1 h
        obtain ⟨hvalue, rfl⟩ := Prod.mk.inj hpair
        obtain ⟨obj', rfl, rfl⟩ := Option.map_eq_some_iff.1 hvalue
        exact .later ⟨candidate, length', hR⟩ ((tryAll_eq_match_iff length').1 htry)
    · intro h
      cases h with
      | here hR => rw [hR]
      | later hR hrest =>
        obtain ⟨candidate, length', hR⟩ := hR
        rw [hR]
        simp only [(tryAll_eq_match_iff length').2 hrest, Option.map_some]

/-- The trial ends without a match exactly where all types refuse the input. -/
theorem exists_tryAll_none_iff {input : Text} : ∀ {Rs : List ResponseType} (length : Nat),
    (∃ n, tryAll Rs input length = some (none, n)) ↔ ∀ R ∈ Rs, Rejects R input
  | [], length => iff_of_true ⟨length, rfl⟩ fun R hR => by cases hR
  | R :: Rs, length => by
    rw [List.forall_mem_cons]
    constructor
    · rintro ⟨n, h⟩
      rw [tryAll] at h
      split at h
      · cases h
      · cases h
      · rename_i candidate length' hR
        obtain ⟨⟨value, m⟩, htry, hpair⟩ := Option.map_eq_some_iff.1 h
        obtain ⟨hvalue, rfl⟩ := Prod.mk.inj hpair
        obtain rfl := Option.map_eq_none_iff.1 hvalue
        exact ⟨⟨candidate, length', hR⟩, (exists_tryAll_none_iff length').1 ⟨m, htry⟩⟩
    · rintro ⟨⟨candidate, length', hR⟩, hRs⟩
      obtain ⟨m, htry⟩ := (exists_tryAll_none_iff length').2 hRs
      exact ⟨m, by rw [tryAll_of_rejects hR, htry]; rfl⟩

/-- There is a first match exactly where no type in front of one that accepts throws. -/
theorem exists_firstMatch_iff {input : Text} : ∀ {Rs : List ResponseType},
    (∃ obj n, FirstMatch input Rs obj n) ↔
      ∃ pre R post, Rs = pre ++ R :: post ∧ Accepts R input ∧ ∀ S ∈ pre, Decides S input
  | [] => by
    refine iff_of_false (fun ⟨obj, _⟩ => nomatch obj) ?_
    rintro ⟨pre, R, post, h, -⟩
    exact absurd h (by simp)
  | R :: Rs => by
    constructor
    · rintro ⟨_, n, h⟩
      cases h with
      | here hR => exact ⟨[], R, Rs, rfl, ⟨_, n, hR⟩, fun S hS => by cases hS⟩
      | later hR hrest =>
        obtain ⟨pre, S, post, rfl, hS, hpre⟩ := exists_firstMatch_iff.1 ⟨_, n, hrest⟩
        refine ⟨R :: pre, S, post, rfl, hS, fun T hT => ?_⟩
        rcases List.mem_cons.1 hT with rfl | hT
        · obtain ⟨candidate, length, hR⟩ := hR
          exact ⟨false, candidate, length, hR⟩
        · exact hpre T hT
    · rintro ⟨pre, S, post, hsplit, hS, hpre⟩
      cases pre with
      | nil =>
        obtain ⟨rfl, rfl⟩ := List.cons.inj hsplit
        obtain ⟨candidate, length, hR⟩ := hS
        exact ⟨_, length, .here hR⟩
      | cons T pre =>
        obtain ⟨rfl, rfl⟩ := List.cons.inj hsplit
        rcases decides_cases (hpre R List.mem_cons_self) with ⟨candidate, length, hR⟩ | hR
        · exact ⟨_, length, .here hR⟩
        · obtain ⟨obj, n, hrest⟩ := exists_firstMatch_iff.2
            ⟨pre, S, post, rfl, hS, fun T hT => hpre T (List.mem_cons_of_mem R hT)⟩
          exact ⟨_, n, .later hR hrest⟩

/-- **Ordered choice, all or nothing**: a pack accepts exactly where some type does that no type
throwing an exception stands in front of; it then holds what the first one to accept has parsed,
and consumes as much, whatever the cursor and the value were; a pack that refuses keeps its value. -/
theorem accept_ordered (Rs : List ResponseType) (value : Variant Rs) (input : Text) (length : Nat) :
    ((∃ value' n, accept Rs value input length = some (true, value', n)) ↔
        ∃ pre R post, Rs = pre ++ R :: post ∧ Accepts R input ∧ ∀ S ∈ pre, Decides S input) ∧
      (∀ value' n, accept Rs value input length = some (true, value', n) →
        ∃ obj, FirstMatch input Rs obj n ∧ value' = some obj) ∧
      ∀ value' n, accept Rs value input length = some (false, value', n) → value' = value := by
  have hmatch : ∀ value' n, accept Rs value input length = some (true, value', n) ↔
      ∃ obj, FirstMatch input Rs obj n ∧ value' = some obj := by
    intro value' n
    unfold accept
    constructor
    · intro h
      obtain ⟨⟨found, m⟩, htry, hpair⟩ := Option.map_eq_some_iff.1 h
      simp only [Prod.mk.injEq] at hpair
      obtain ⟨hsome, rfl, rfl⟩ := hpair
      obtain ⟨obj, rfl⟩ := Option.isSome_iff_exists.1 hsome
      exact ⟨obj, (tryAll_eq_match_iff length).1 htry, rfl⟩
    · rintro ⟨obj, hfirst, rfl⟩
      rw [(tryAll_eq_match_iff length).2 hfirst]
      rfl
  refine ⟨?_, fun value' n => (hmatch value' n).1, fun value' n h => ?_⟩
  · rw [← exists_firstMatch_iff]
    constructor
    · rintro ⟨value', n, h⟩
      obtain ⟨obj, hfirst, -⟩ := (hmatch value' n).1 h
      exact ⟨obj, n, hfirst⟩
    · rintro ⟨obj, n, hfirst⟩
      exact ⟨some obj, n, (hmatch _ n).2 ⟨obj, hfirst, rfl⟩⟩
  · obtain ⟨⟨found, m⟩, -, hpair⟩ := Option.map_eq_some_iff.1 h
    simp only [Prod.mk.injEq, Option.isSome_eq_false_iff, Option.isNone_iff_eq_none] at hpair
    obtain ⟨rfl, rfl, -⟩ := hpair
    rfl

end ResponsePack

/-! ## Final result codes -/

/-- A response that parses through `Response::acceptImpl`. -/
def Response.type (tag : Text) (fields : List ResponseField) : ResponseType :=
  ⟨List ResponseField, fields, Response.acceptImpl tag⟩

/-- A response that parses through `APacket::accept`. -/
def APacket.type (tag : Text) (fields : List ResponseField) : ResponseType :=
  ⟨List ResponseField, fields, fun args input length =>
    APacket.accept (Deserializer.visitor input) tag args length⟩

/-- An enum without a string map: its declared values, and `magic_enum::enum_cast` (with the
conversion of its `int` argument), which recognises exactly these. -/
structure NumericEnum (values : List Int) where
  converter : EnumStringConverter Int
  range : ∀ v ∈ values, 0 ≤ v ∧ v ≤ 1024
  recognises : ∀ num, converter.enumCast num = if num ∈ values then some num else none

/-- The enum with these enumerators, kept as their values. -/
def NumericEnum.ofValues (values : List Int) (range : ∀ v ∈ values, 0 ≤ v ∧ v ≤ 1024) :
    NumericEnum values :=
  ⟨⟨id, fun num => if num ∈ values then some num else none⟩, range, fun _ => rfl⟩

/-- `Core::Enum<Code> code{}`. -/
def NumericEnum.field {values : List Int} (e : NumericEnum values) (value : Int) : ResponseField :=
  .enum ⟨.numeric e.converter, value⟩

def Ok : ResponseType := Response.type (text "OK") []

def Error : ResponseType := APacket.type (text "ERROR") []

/-- `CmsError::Code`. -/
def CmsError.Code : List Int := [500]

def CmsError (code : NumericEnum CmsError.Code) : ResponseType :=
  APacket.type (text "+CMS ERROR:") [code.field 0]

/-- `CmeError::Code`. -/
def CmeError.Code : List Int := [0]

def CmeError (code : NumericEnum CmeError.Code) : ResponseType :=
  APacket.type (text "+CME ERROR:") [code.field 0]

/-- `FinalResultCode<Rs...>`. -/
def FinalResultCode (cms : NumericEnum CmsError.Code) (cme : NumericEnum CmeError.Code)
    (Rs : List ResponseType) : List ResponseType :=
  Rs ++ [Ok, Error, CmsError cms, CmeError cme]

/-- Two quoted strings run behind the end of `+X:`, CRLF and a comma: the exception keeps the pack
from the second type, which accepts. -/
theorem throwing_type_ends_the_pack :
    (∃ R ∈ [Response.type (text "+X:") [.quoted [0, 0], .quoted [0, 0]], Response.type (text "+X:") []],
        ResponsePack.Accepts R (text "+X:\r\n,")) ∧
      ¬ ∃ value n, ResponsePack.accept
        [Response.type (text "+X:") [.quoted [0, 0], .quoted [0, 0]], Response.type (text "+X:") []]
        none (text "+X:\r\n,") 0 = some (true, value, n) := by
  constructor
  · have hok : (Response.acceptImpl (text "+X:") [] (text "+X:\r\n,") 0).map (·.1) = some true := by
      decide +kernel
    obtain ⟨⟨ok, fs, n⟩, haccept, rfl⟩ := Option.map_eq_some_iff.1 hok
    exact ⟨Response.type (text "+X:") [], by simp, fs, n, haccept⟩
  · rintro ⟨value, n, h⟩
    have hthrows : (ResponsePack.accept
        [Response.type (text "+X:") [.quoted [0, 0], .quoted [0, 0]], Response.type (text "+X:") []]
        none (text "+X:\r\n,") 0).isNone = true := by decide +kernel
    rw [h] at hthrows
    cases hthrows

end ATLink
