import ATLink.Types

/-!
# What the parsing of a custom enum takes

`EnumCustomStringConverter::parse` searches the table by halving, with a comparison cut to the
length of each string, and then takes the length of the first string with the value found.

* `LongestStart` — the longest string of the table that the input starts with.
* `LongestMatch` — parsing takes it, and nothing where there is none.
* `Misleads` — a string that sends the search the wrong way.
* `FirstSpelling` — the string that stands for a value where several do.
* `TakesWhatMatched` — the characters taken are a string of the table with the value stored.

Principal results: `longestMatch_iff` — for distinct values, by the strings that the search
inspects on the way to the longest one; `takesWhatMatched_iff` — for strings none of which starts
another, by the first spelling of the value.
-/

namespace ATLink

open LowerBound

namespace EnumCustomStringConverter

/-- The strings of the table. -/
def keys {T : Type} (c : EnumCustomStringConverter T) : List Text := c.map.map (·.1)

/-- `keys[j]` is the longest string that the input starts with. -/
structure LongestStart (keys : List Text) (input : Text) (j : Nat) (hj : j < keys.length) : Prop where
  starts : keys[j] <+: input
  longest : ∀ k ∈ keys, k <+: input → k.length ≤ keys[j].length

/-- `keys[m]` answers the search for `keys[j]` wrongly: it starts `keys[j]`, or `keys[j]` starts it
and it lies below the input. -/
def Misleads (keys : List Text) (input : Text) (j m : Nat) (hj : j < keys.length)
    (hm : m < keys.length) : Prop :=
  m ≠ j ∧ (keys[m] <+: keys[j] ∨ keys[j] <+: keys[m] ∧ DiffLt keys[m] input)

section Search

variable {T : Type} {c : EnumCustomStringConverter T} {input : Text} {v : T}

theorem keys_sorted (c : EnumCustomStringConverter T) : c.keys.Pairwise (· < ·) :=
  pairwise_of_sorted c.sorted

theorem keys_length (c : EnumCustomStringConverter T) : c.keys.length = c.map.length :=
  List.length_map _

theorem mem_keys {k : Text} : k ∈ c.keys ↔ ∃ v, (k, v) ∈ c.map := by
  unfold keys
  rw [List.mem_map]
  constructor
  · rintro ⟨⟨k, v⟩, hmem, rfl⟩
    exact ⟨v, hmem⟩
  · rintro ⟨v, hmem⟩
    exact ⟨(k, v), hmem, rfl⟩

/-- The search returns the value of the record it ends at, where the input starts with its
string. -/
theorem lookup_eq_some_iff : c.lookup input = some v ↔ input ≠ [] ∧
    ∃ k, c.map[lowerBound (truncLt input) c.keys]? = some (k, v) ∧ k <+: input := by
  unfold lookup
  rw [lowerBound_map (fun item : Text × T => item.1) (truncLt input)]
  constructor
  · intro h
    split at h
    · cases h
    · rename_i hne
      split at h
      · rename_i it hit
        split at h
        · rename_i hk
          cases h
          exact ⟨hne, it.1, hit, List.prefix_iff_eq_take.2 hk.2.symm⟩
        · cases h
      · cases h
  · rintro ⟨hne, k, hit, hk⟩
    have hkeys : c.map[lowerBound (truncLt input) (c.map.map fun item => item.1)]? = some (k, v) := hit
    rw [if_neg hne, hkeys]
    exact if_pos ⟨hk.length_le, (List.prefix_iff_eq_take.1 hk).symm⟩

/-- The search finds the string at `j`, with which the input starts, exactly when no string
inspected on the way misleads it. -/
theorem lowerBound_eq_index_iff {j : Nat} (hj : j < c.keys.length) (hstarts : c.keys[j] <+: input) :
    lowerBound (truncLt input) c.keys = j ↔
      ∀ m (hm : m < c.keys.length), m ∈ probes 0 c.keys.length j →
        ¬ Misleads c.keys input j m hj hm := by
  rw [lowerBound_eq_iff (Nat.le_of_lt hj)]
  refine forall_congr' fun m => forall_congr' fun hm => forall_congr' fun _ => ?_
  rw [truncLt_probe_iff c.keys_sorted hj hm hstarts, Misleads]
  tauto

/-- The record at the index of a string. -/
theorem record_at {j : Nat} (hj : j < c.keys.length) :
    ∃ v, c.map[j]? = some (c.keys[j], v) := by
  have hj' : j < c.map.length := by rw [← keys_length]; exact hj
  refine ⟨c.map[j].2, ?_⟩
  rw [List.getElem?_eq_getElem hj']
  simp [keys]

/-- Strings that the input starts with are told apart by their lengths. -/
theorem index_unique {i j : Nat} (hi : i < c.keys.length) (hj : j < c.keys.length)
    (hi' : c.keys[i] <+: input) (hj' : c.keys[j] <+: input)
    (hlen : c.keys[i].length = c.keys[j].length) : i = j := by
  have heq : c.keys[i] = c.keys[j] := by
    rw [List.prefix_iff_eq_take.1 hi', List.prefix_iff_eq_take.1 hj', hlen]
  have hnodup : c.keys.Nodup := c.keys_sorted.imp fun h => ne_of_lt h
  exact (hnodup.getElem_inj_iff).1 heq

/-- No two records have the same string. -/
theorem value_unique {k : Text} {w : T} (hv : (k, v) ∈ c.map) (hw : (k, w) ∈ c.map) : v = w := by
  have hnodup : c.keys.Nodup := c.keys_sorted.imp fun h => ne_of_lt h
  have hsame : (k, v) = (k, w) := List.inj_on_of_nodup_map hnodup hv hw rfl
  exact (Prod.mk.inj hsame).2

end Search

section Parse

variable {T : Type} [DecidableEq T] {c : EnumCustomStringConverter T} {input : Text} {value v : T}

/-- Longest match: the length and the value of the longest string that the input starts with, and
nothing where there is none. -/
def LongestMatch (c : EnumCustomStringConverter T) (value : T) (input : Text) : Prop :=
  (∀ j (hj : j < c.keys.length), LongestStart c.keys input j hj →
      ∃ v, (c.keys[j], v) ∈ c.map ∧ c.parse value input = (c.keys[j].length, v)) ∧
    ((∀ k ∈ c.keys, ¬ k <+: input) → c.parse value input = (0, value))

/-- Nothing is taken where the search finds nothing. -/
theorem parse_of_none (h : c.lookup input = none) : c.parse value input = (0, value) := by
  rw [parse, h]

theorem parse_of_some {k : Text} (h : c.lookup input = some v) (hk : c.lookupString v = some k) :
    c.parse value input = (k.length, v) := by
  rw [parse, h]
  simp only [hk, Option.map_some, Option.getD_some]

/-- Where no string starts the input nothing is taken. -/
theorem parse_of_no_start (h : ∀ k ∈ c.keys, ¬ k <+: input) : c.parse value input = (0, value) := by
  apply parse_of_none
  cases hfound : c.lookup input with
  | none => rfl
  | some v =>
    obtain ⟨k, hmem, hk⟩ := lookup_sound hfound
    exact absurd hk (h k (mem_keys.2 ⟨v, hmem⟩))

/-- For distinct values, what is taken is the string at the index where the search ends. -/
theorem parse_at_index (hd : (c.map.map (·.2)).Nodup) {j : Nat} (hj : j < c.keys.length)
    (hne : c.keys[j] ≠ []) (hstarts : c.keys[j] <+: input)
    (hend : lowerBound (truncLt input) c.keys = j) :
    ∃ v, (c.keys[j], v) ∈ c.map ∧ c.parse value input = (c.keys[j].length, v) := by
  obtain ⟨v, hrecord⟩ := record_at hj
  have hmem : (c.keys[j], v) ∈ c.map := List.mem_of_getElem? hrecord
  have hinput : input ≠ [] := fun h => hne (List.prefix_nil.1 (h ▸ hstarts))
  have hfound : c.lookup input = some v :=
    lookup_eq_some_iff.2 ⟨hinput, c.keys[j], by rw [hend]; exact hrecord, hstarts⟩
  exact ⟨v, hmem, parse_of_some hfound (lookupString_of_mem hd hmem)⟩

/-- Conversely, a positive length is that of the string where the search ends. -/
theorem index_of_parse (hd : (c.map.map (·.2)).Nodup) {n : Nat} (h : c.parse value input = (n, v))
    (hpos : 0 < n) : ∃ i, ∃ hi : i < c.keys.length, lowerBound (truncLt input) c.keys = i ∧
      c.keys[i] <+: input ∧ c.keys[i].length = n := by
  cases hfound : c.lookup input with
  | none =>
    rw [parse_of_none hfound] at h
    cases h
    omega
  | some w =>
    obtain ⟨-, k, hrecord, hk⟩ := lookup_eq_some_iff.1 hfound
    have hmem : (k, w) ∈ c.map := List.mem_of_getElem? hrecord
    have hi : lowerBound (truncLt input) c.keys < c.keys.length := by
      rw [keys_length]
      exact (List.getElem?_eq_some_iff.1 hrecord).1
    have hkey : c.keys[lowerBound (truncLt input) c.keys] = k := by
      obtain ⟨w', hrecord'⟩ := record_at hi
      rw [hrecord'] at hrecord
      cases hrecord
      rfl
    rw [parse_of_some hfound (lookupString_of_mem hd hmem)] at h
    cases h
    exact ⟨_, hi, rfl, hkey ▸ hk, by rw [hkey]⟩

/-- **Longest match, exactly**: for distinct values, parsing takes the longest string that the
input starts with if and only if the search meets no string on the way there that misleads it. -/
theorem longestMatch_iff (hd : (c.map.map (·.2)).Nodup) (hne : ∀ k ∈ c.keys, k ≠ []) :
    c.LongestMatch value input ↔ ∀ j (hj : j < c.keys.length), LongestStart c.keys input j hj →
      ∀ m (hm : m < c.keys.length), m ∈ probes 0 c.keys.length j →
        ¬ Misleads c.keys input j m hj hm := by
  constructor
  · rintro ⟨hlongest, -⟩ j hj hstart
    apply (lowerBound_eq_index_iff hj hstart.starts).1
    obtain ⟨v, -, hparse⟩ := hlongest j hj hstart
    have hpos : 0 < c.keys[j].length := List.length_pos_iff.2 (hne _ (List.getElem_mem hj))
    obtain ⟨i, hi, hend, hstarts, hlen⟩ := index_of_parse hd hparse hpos
    rw [hend]
    exact index_unique hi hj hstarts hstart.starts hlen
  · intro h
    refine ⟨fun j hj hstart => ?_, parse_of_no_start⟩
    apply parse_at_index hd hj (hne _ (List.getElem_mem hj)) hstart.starts
    exact (lowerBound_eq_index_iff hj hstart.starts).2 (h j hj hstart)

/-- Longest match of a string of the table itself: parsing undoes `stringify`. -/
theorem LongestMatch.undoes {k : Text} (h : c.LongestMatch value k) (hmem : (k, v) ∈ c.map) :
    c.parse value k = (k.length, v) := by
  obtain ⟨j, hj, hk⟩ := List.getElem_of_mem (List.mem_map_of_mem (f := (·.1)) hmem)
  have hk : c.keys[j] = k := hk
  have hstart : LongestStart c.keys k j hj :=
    ⟨by rw [hk], fun k' _ hstarts => by rw [hk]; exact hstarts.length_le⟩
  obtain ⟨w, hw, hparse⟩ := h.1 j hj hstart
  rw [hk] at hw hparse
  rw [hparse, value_unique hw hmem]

end Parse

end EnumCustomStringConverter

/-! ## The shipped table of `+CPIN:` -/

/-- `CpinReadResponse::Code`. -/
inductive CpinReadResponse.Code where
  | ready
  | simPin
  | simPuk
  | phSimPin
  | phSimPuk
  | phSimPin2
  | phSimPuk2
  deriving DecidableEq

/-- `MapProvider<CpinReadResponse::Code>::map`. -/
def CpinReadResponse.map : EnumCustomStringConverter CpinReadResponse.Code where
  map := [(text "PH_SIM_PIN", .phSimPin), (text "PH_SIM_PUK", .phSimPuk), (text "READY", .ready),
    (text "SIM_PIN", .simPin), (text "SIM_PIN2", .phSimPin2), (text "SIM_PUK", .simPuk),
    (text "SIM_PUK2", .phSimPuk2)]
  sorted := by decide +kernel

namespace EnumCustomStringConverter

theorem longestMatch_iff_cpin :
    CpinReadResponse.map.LongestMatch .ready (text "SIM_PUK2") ↔
      ∀ j (hj : j < CpinReadResponse.map.keys.length),
        LongestStart CpinReadResponse.map.keys (text "SIM_PUK2") j hj →
        ∀ m (hm : m < CpinReadResponse.map.keys.length),
          m ∈ probes 0 CpinReadResponse.map.keys.length j →
          ¬ Misleads CpinReadResponse.map.keys (text "SIM_PUK2") j m hj hm :=
  longestMatch_iff (by decide +kernel) (by decide +kernel)

/-- `SIM_PIN2` is read as `SIM_PIN`. -/
theorem sim_pin2_is_cut : ¬ CpinReadResponse.map.LongestMatch .ready (text "SIM_PIN2") := by
  rintro ⟨hlongest, -⟩
  have hparse : CpinReadResponse.map.parse .ready (text "SIM_PIN2") = (7, .simPin) := by
    decide +kernel
  obtain ⟨v, -, hv⟩ := hlongest 4 (by decide +kernel) ⟨by decide +kernel, by decide +kernel⟩
  rw [hparse, Prod.mk.injEq] at hv
  exact absurd hv.1 (by decide +kernel)

/-! ## Several strings for one value -/

section Spellings

variable {T : Type} [DecidableEq T] {c : EnumCustomStringConverter T} {input : Text} {value v : T}

omit [DecidableEq T] in
/-- `k` is the string of the first record with the value. -/
def FirstSpelling (c : EnumCustomStringConverter T) (v : T) (k : Text) : Prop :=
  ∃ before after, c.map = before ++ (k, v) :: after ∧ ∀ r ∈ before, r.2 ≠ v

/-- The characters taken are a string of the table with the value stored; something is taken
exactly where a string starts the input. -/
def TakesWhatMatched (c : EnumCustomStringConverter T) (value : T) (input : Text) : Prop :=
  (∀ n v, c.parse value input = (n, v) → 0 < n →
      ∃ k, (k, v) ∈ c.map ∧ k <+: input ∧ k.length = n) ∧
    ((∀ k ∈ c.keys, ¬ k <+: input) → c.parse value input = (0, value)) ∧
    ((∃ k ∈ c.keys, k <+: input) → 0 < (c.parse value input).1)

theorem lookupString_eq_some_iff {k : Text} : c.lookupString v = some k ↔ FirstSpelling c v k := by
  unfold lookupString
  rw [Option.map_eq_some_iff]
  constructor
  · rintro ⟨⟨k', v'⟩, hfound, rfl⟩
    obtain ⟨hv, before, after, hmap, hbefore⟩ := List.find?_eq_some_iff_append.1 hfound
    simp only [decide_eq_true_eq] at hv
    subst hv
    exact ⟨before, after, hmap, fun r hr => by simpa using hbefore r hr⟩
  · rintro ⟨before, after, hmap, hbefore⟩
    refine ⟨(k, v), List.find?_eq_some_iff_append.2 ⟨by simp, before, after, hmap, ?_⟩, rfl⟩
    exact fun r hr => by simpa using hbefore r hr

/-- **What is taken is what matched, exactly**: where no string starts another one, if and only
if the string that starts the input is as long as the first spelling of its value. -/
theorem takesWhatMatched_iff (hf : PrefixFree c.keys) (hne : ∀ k ∈ c.keys, k ≠ []) :
    c.TakesWhatMatched value input ↔
      ∀ k v k', (k, v) ∈ c.map → k <+: input → FirstSpelling c v k' → k'.length = k.length := by
  have hfound : ∀ {k v}, (k, v) ∈ c.map → k <+: input → c.lookup input = some v := fun hmem hk =>
    lookup_complete hf hmem (hne _ (mem_keys.2 ⟨_, hmem⟩)) hk
  constructor
  · rintro ⟨htaken, -, hpos⟩ k v k' hmem hk hfirst
    have hparse : c.parse value input = (k'.length, v) :=
      parse_of_some (hfound hmem hk) (lookupString_eq_some_iff.2 hfirst)
    have hlen : 0 < k'.length := by
      have := hpos ⟨k, mem_keys.2 ⟨v, hmem⟩, hk⟩
      rwa [hparse] at this
    obtain ⟨k₂, hmem₂, hk₂, hlen₂⟩ := htaken _ _ hparse hlen
    rw [← hlen₂, hf.unique (mem_keys.2 ⟨v, hmem₂⟩) (mem_keys.2 ⟨v, hmem⟩) hk₂ hk]
  · intro h
    -- parsing takes the length of the string that starts the input
    have hparse : ∀ {k v}, (k, v) ∈ c.map → k <+: input → c.parse value input = (k.length, v) := by
      intro k v hmem hk
      obtain ⟨k', hk'⟩ := lookupString_isSome hmem
      rw [parse_of_some (hfound hmem hk) hk', h k v k' hmem hk (lookupString_eq_some_iff.1 hk')]
    refine ⟨fun n w htaken hpos => ?_, parse_of_no_start, ?_⟩
    · by_cases hstart : ∃ k ∈ c.keys, k <+: input
      · obtain ⟨k, hmem, hk⟩ := hstart
        obtain ⟨v, hmem⟩ := mem_keys.1 hmem
        rw [hparse hmem hk] at htaken
        cases htaken
        exact ⟨k, hmem, hk, rfl⟩
      · rw [parse_of_no_start fun k hmem hk => hstart ⟨k, hmem, hk⟩] at htaken
        cases htaken
        omega
    · rintro ⟨k, hmem, hk⟩
      obtain ⟨v, hrecord⟩ := mem_keys.1 hmem
      rw [hparse hrecord hk]
      exact List.length_pos_iff.2 (hne k hmem)

end Spellings

/-- A table in which `AA` and `B` are spellings of the same value. -/
def aliasMap : EnumCustomStringConverter Bool where
  map := [(text "AA", true), (text "B", true)]
  sorted := by decide +kernel

theorem takesWhatMatched_iff_alias :
    aliasMap.TakesWhatMatched false (text "AA") ↔
      ∀ k v k', (k, v) ∈ aliasMap.map → k <+: text "AA" → FirstSpelling aliasMap v k' →
        k'.length = k.length :=
  takesWhatMatched_iff (by simp [aliasMap, keys, PrefixFree, text]) (by decide +kernel)

/-- `B` matches, and the two characters of `AA` are taken. -/
theorem alias_takes_too_much : ¬ aliasMap.TakesWhatMatched false (text "B,1") := by
  rintro ⟨htaken, -⟩
  obtain ⟨k, hmem, hk, hlen⟩ := htaken 2 true (by decide +kernel) (by decide)
  have hnone : ∀ r ∈ aliasMap.map, r.1 <+: text "B,1" → r.1.length ≠ 2 := by decide +kernel
  exact hnone _ hmem hk hlen

end EnumCustomStringConverter

end ATLink
