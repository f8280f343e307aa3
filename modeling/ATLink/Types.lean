import ATLink.Lib.StringView
import ATLink.Lib.CharConv
import ATLink.Lib.LowerBound

/-!
# Texts, sequences and enums

Reference model of `core/Types.h`, `core/Constants.h`, `utils/EnumStringConverter.h` and
`core/Enum.h`.

* `Text` — the characters of a `std::string_view`, and also the contents of a `gsl::span<char>`.
* `Sequence.stringify` / `Sequence.parse` — literal text.
* `EnumStringConverter` — enums written as decimal numbers.  `magic_enum::enum_cast` is a
  third-party function and a field of the converter.
* `EnumCustomStringConverter` — enums written by a table of strings: the linear scan from value
  to string, the binary search from string to value.
* `Enum` — the dispatch of `EnumTraits`.

A function that writes to a span takes the contents of the span and returns the number it
reports with the new contents.  Principal results: `lookup_sound` and `lookup_complete` (what
the binary search finds in a table of strings none of which starts another).
-/

namespace ATLink

open StringView CharConv LowerBound

/-- `char`, compared as an octet. -/
abbrev Byte := UInt8

/-- `ReadOnlyText`, and the contents of a `MutableBuffer`. -/
abbrev Text := List Byte

instance : LinearOrder Byte where
  le_refl := UInt8.le_refl
  le_trans _ _ _ := UInt8.le_trans
  lt_iff_le_not_ge a b := by
    rw [UInt8.lt_iff_toNat_lt, UInt8.le_iff_toNat_le, UInt8.le_iff_toNat_le]; omega
  le_antisymm _ _ := UInt8.le_antisymm
  le_total a b := UInt8.le_total a b
  toDecidableLE := inferInstance
  toDecidableEq := inferInstance
  toDecidableLT := inferInstance

/-- The octets of an ASCII literal. -/
def text (s : String) : Text := s.toList.map fun c => c.toNat.toUInt8

namespace Constants

def Cr : Text := text "\r"

def CrLf : Text := text "\r\n"

def Comma : Text := text ","

end Constants

/-- `" \t"`, the set skipped by `Deserializer::skipWhitespaces`. -/
def blanks : Text := text " \t"

/-- `'"'`. -/
def quote : Byte := 34

/-- `'\\'`. -/
def backslash : Byte := 92

/-- `','`. -/
def comma : Byte := 44

/-- `'\r'`. -/
def carriageReturn : Byte := 13

/-- Range of `int`. -/
def INT_MIN : Int := -2147483648

def INT_MAX : Int := 2147483647

/-! ## Sequences -/

/-- `Sequence::stringify`. -/
def Sequence.stringify (seq output : Text) : Nat × Text :=
  if seq.length < output.length then (seq.length, seq ++ output.drop seq.length) else (0, output)

/-- `Sequence::parse`. -/
def Sequence.parse (seq input : Text) : Nat := if find seq input = some 0 then seq.length else 0

theorem Sequence.parse_eq (seq input : Text) [Decidable (seq <+: input)] :
    Sequence.parse seq input = if seq <+: input then seq.length else 0 := by
  unfold Sequence.parse
  by_cases h : seq <+: input
  · rw [if_pos h, if_pos (find_zero.2 h)]
  · rw [if_neg h, if_neg fun hf => h (find_zero.1 hf)]

theorem Sequence.parse_pos {seq input : Text} :
    0 < Sequence.parse seq input ↔ seq ≠ [] ∧ seq <+: input := by
  classical
  rw [Sequence.parse_eq]
  split
  · rename_i h; simp [h, List.length_pos_iff]
  · rename_i h; simp [h]

theorem Sequence.parse_le (seq input : Text) : Sequence.parse seq input ≤ input.length := by
  classical
  rw [Sequence.parse_eq]
  split
  · rename_i h; exact h.length_le
  · exact Nat.zero_le _

/-! ## Numeric enums -/

/-- `EnumStringConverter<T>` with the conversions of `T` it relies on: `static_cast<int>` and
`magic_enum::enum_cast<T>`. -/
structure EnumStringConverter (T : Type) where
  toInt : T → Int
  enumCast : Int → Option T

namespace EnumStringConverter

variable {T : Type}

def stringify (c : EnumStringConverter T) (value : T) (output : Text) : Nat × Text :=
  if 0 < output.length then
    match toCharsInto (output.length - 1) (c.toInt value) with
    | some t => (t.length, t ++ 0 :: output.drop (t.length + 1))
    | none => (0, output)
  else (0, output)

def parse (c : EnumStringConverter T) (value : T) (input : Text) : Nat × T :=
  match fromChars INT_MIN INT_MAX input with
  | some (num, n) =>
    match c.enumCast num with
    | some v => (n, v)
    | none => (0, value)
  | none => (0, value)

theorem parse_le (c : EnumStringConverter T) (value : T) (input : Text) :
    (c.parse value input).1 ≤ input.length := by
  unfold parse
  split
  · rename_i h
    split
    · exact fromChars_length_le h
    · exact Nat.zero_le _
  · exact Nat.zero_le _

end EnumStringConverter

/-! ## Enums with custom strings -/

/-- `isStrictlySortedByString`. -/
def isStrictlySortedByString {T : Type} : List (Text × T) → Bool
  | a :: b :: arr => decide (a.1 < b.1) && isStrictlySortedByString (b :: arr)
  | _ => true

theorem pairwise_of_sorted {T : Type} :
    ∀ {arr : List (Text × T)}, isStrictlySortedByString arr = true →
      (arr.map (·.1)).Pairwise (· < ·)
  | [], _ => List.Pairwise.nil
  | [_], _ => List.pairwise_singleton _ _
  | a :: b :: arr, h => by
    simp only [isStrictlySortedByString, Bool.and_eq_true, decide_eq_true_eq] at h
    have ih := pairwise_of_sorted h.2
    rw [List.map_cons]
    refine List.pairwise_cons.2 ⟨fun k hk => ?_, ih⟩
    rw [List.map_cons] at hk ih
    rcases List.mem_cons.1 hk with rfl | hk
    · exact h.1
    · exact List.lt_trans h.1 ((List.pairwise_cons.1 ih).1 k hk)

/-- `EnumCustomStringConverter<T, N>`; the field `sorted` is the `static_assert` of
`EnumTraits`. -/
structure EnumCustomStringConverter (T : Type) where
  map : List (Text × T)
  sorted : isStrictlySortedByString map = true

namespace EnumCustomStringConverter

variable {T : Type} [DecidableEq T]

/-- `lookup(T variant)`: the first string with that value; `none` is a failed `assert`. -/
def lookupString (c : EnumCustomStringConverter T) (variant : T) : Option Text :=
  (c.map.find? fun i => i.2 = variant).map (·.1)

/-- `lookup(ReadOnlyText str)`. -/
def lookup (c : EnumCustomStringConverter T) (str : Text) : Option T :=
  if str = [] then none
  else
    match c.map[lowerBound (fun item => truncLt str item.1) c.map]? with
    | some it =>
      if it.1.length ≤ str.length ∧ str.take it.1.length = it.1 then some it.2 else none
    | none => none

def stringify (c : EnumCustomStringConverter T) (value : T) (output : Text) : Option (Nat × Text) :=
  match c.lookupString value with
  | some str =>
    if str.length < output.length then some (str.length, str ++ output.drop str.length)
    else some (0, output)
  | none => none

/-- The length reported is that of the string found by the second lookup.  Its `assert` cannot
fail here: the value comes out of the table (`lookup_sound`). -/
def parse (c : EnumCustomStringConverter T) (value : T) (input : Text) : Nat × T :=
  match c.lookup input with
  | some v => (((c.lookupString v).map (·.length)).getD 0, v)
  | none => (0, value)

omit [DecidableEq T] in
/-- What the binary search returns stands in the table, under a string the text starts with. -/
theorem lookup_sound {c : EnumCustomStringConverter T} {str : Text} {v : T}
    (h : c.lookup str = some v) : ∃ k, (k, v) ∈ c.map ∧ k <+: str := by
  unfold lookup at h
  split at h
  · cases h
  · split at h
    · rename_i it hit
      split at h
      · rename_i hk
        cases h
        exact ⟨it.1, List.mem_of_getElem? hit, hk.2 ▸ List.take_prefix _ _⟩
      · cases h
    · cases h

omit [DecidableEq T] in
/-- **Completeness of the binary search** for strings none of which starts another. -/
theorem lookup_complete {c : EnumCustomStringConverter T} (hf : PrefixFree (c.map.map (·.1)))
    {k str : Text} {v : T} (hm : (k, v) ∈ c.map) (hne : k ≠ []) (hp : k <+: str) :
    c.lookup str = some v := by
  obtain ⟨i, hi, he⟩ := List.getElem_of_mem hm
  have hi' : i < (c.map.map (·.1)).length := by simpa using hi
  have hk : (c.map.map (·.1))[i] = k := by rw [List.getElem_map, he]
  have hlb : lowerBound (fun item => truncLt str item.1) c.map = i := by
    rw [lowerBound_map (fun item : Text × T => item.1) (truncLt str)]
    exact lowerBound_eq_of_starts (pairwise_of_sorted c.sorted) hf hi' (by rw [hk]; exact hp)
  have hstr : str ≠ [] := fun h => hne (by rw [h] at hp; exact List.prefix_nil.1 hp)
  unfold lookup
  rw [if_neg hstr, hlb, List.getElem?_eq_getElem hi, he]
  exact if_pos ⟨hp.length_le, (List.prefix_iff_eq_take.1 hp).symm⟩

theorem lookupString_mem {c : EnumCustomStringConverter T} {k : Text} {v : T}
    (h : c.lookupString v = some k) : (k, v) ∈ c.map := by
  unfold lookupString at h
  obtain ⟨i, hi, rfl⟩ := Option.map_eq_some_iff.1 h
  have hv := List.find?_some hi
  simp only [decide_eq_true_eq] at hv
  rw [← hv]
  exact List.mem_of_find?_eq_some hi

theorem lookupString_isSome {c : EnumCustomStringConverter T} {k : Text} {v : T}
    (h : (k, v) ∈ c.map) : ∃ k', c.lookupString v = some k' := by
  unfold lookupString
  cases hf : c.map.find? fun i => i.2 = v with
  | none =>
    have := List.find?_eq_none.1 hf (k, v) h
    simp at this
  | some i => exact ⟨i.1, rfl⟩

/-- Where the values are distinct the scan gives back the string of the record. -/
theorem lookupString_of_mem {c : EnumCustomStringConverter T} (hd : (c.map.map (·.2)).Nodup)
    {k : Text} {v : T} (h : (k, v) ∈ c.map) : c.lookupString v = some k := by
  obtain ⟨k', hk'⟩ := lookupString_isSome h
  have : (k', v) = (k, v) :=
    List.inj_on_of_nodup_map hd (lookupString_mem hk') h rfl
  cases this
  exact hk'

end EnumCustomStringConverter

/-! ## `Enum<T>` -/

/-- `EnumTraits<T>`: numeric unless a `MapProvider<T>` is specialised. -/
inductive EnumTraits (T : Type) where
  | numeric (converter : EnumStringConverter T)
  | custom (converter : EnumCustomStringConverter T)

structure Enum (T : Type) where
  traits : EnumTraits T
  value : T

/-- The visitors see an `AEnum` only; the enumerators behind it are carried by their
underlying values. -/
abbrev AEnum := Enum Int

namespace Enum

variable {T : Type} [DecidableEq T]

/-- `Enum::stringify`; `none` is the failed `assert` of a value that has no string. -/
def stringify (e : Enum T) (output : Text) : Option (Nat × Text) :=
  match e.traits with
  | .numeric c => some (c.stringify e.value output)
  | .custom c => c.stringify e.value output

/-- `Enum::parse`. -/
def parse (e : Enum T) (input : Text) : Nat × Enum T :=
  match e.traits with
  | .numeric c => ((c.parse e.value input).1, { e with value := (c.parse e.value input).2 })
  | .custom c => ((c.parse e.value input).1, { e with value := (c.parse e.value input).2 })

@[simp] theorem parse_traits (e : Enum T) (input : Text) : (e.parse input).2.traits = e.traits := by
  unfold parse
  split <;> rename_i h <;> simp

end Enum

end ATLink
