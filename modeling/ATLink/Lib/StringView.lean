import Mathlib.Data.List.Basic
import Mathlib.Data.List.TakeWhile

/-!
# `std::string_view` searches on lists

The operations of a string view that a cursor parser uses, on the list of its characters.

* `substr` — `none` is the thrown `std::out_of_range`.
* `find` / `findFirstNotOf` — `none` is `npos`.

`find_eq_some_iff` says what a search result means; `find_zero` is the prefix test,
`find_append_of_not_mem` the search for a single character behind a text free of it, and
`append_inj_of_not_mem` its consequence for two splits of one text; `skipSet`
is the text left behind the leading characters of a set, and `skipSet_append` its only rule.
-/

namespace StringView

variable {α : Type}

/-- `s.substr(pos)`. -/
def substr (s : List α) (pos : Nat) : Option (List α) :=
  if pos ≤ s.length then some (s.drop pos) else none

theorem substr_of_le {s : List α} {pos : Nat} (h : pos ≤ s.length) :
    substr s pos = some (s.drop pos) := if_pos h

theorem substr_append (p r : List α) : substr (p ++ r) p.length = some r := by
  simp [substr]

/-- A position inside a text splits it. -/
theorem exists_split {s : List α} {pos : Nat} (h : pos ≤ s.length) :
    ∃ p r, s = p ++ r ∧ pos = p.length :=
  ⟨s.take pos, s.drop pos, (List.take_append_drop pos s).symm, (List.length_take_of_le h).symm⟩

theorem substr_eq_some {s r : List α} {pos : Nat} (h : substr s pos = some r) :
    pos ≤ s.length ∧ r = s.drop pos := by
  unfold substr at h
  split at h
  · cases h; exact ⟨by assumption, rfl⟩
  · cases h

variable [DecidableEq α]

/-- `s.find(needle)`: the first position at which `needle` starts. -/
def find (needle : List α) : List α → Option Nat
  | [] => if needle = [] then some 0 else none
  | c :: s => if needle.isPrefixOf (c :: s) then some 0 else (find needle s).map (· + 1)

/-- `s.find(needle, pos)`. -/
def findFrom (needle s : List α) (pos : Nat) : Option Nat :=
  if pos ≤ s.length then (find needle (s.drop pos)).map (pos + ·) else none

/-- `s.find_first_not_of(set)`. -/
def findFirstNotOf (set s : List α) : Option Nat := s.findIdx? fun c => !set.contains c

/-! ## `find` -/

theorem find_eq_some_iff {needle s : List α} {i : Nat} :
    find needle s = some i ↔
      i ≤ s.length ∧ needle <+: s.drop i ∧ ∀ j < i, ¬ needle <+: s.drop j := by
  induction s generalizing i with
  | nil =>
    unfold find
    constructor
    · intro h
      split at h
      · cases h; simp_all
      · cases h
    · rintro ⟨hi, hp, -⟩
      have h0 : i = 0 := by simpa using hi
      subst h0
      simp only [List.drop_nil, List.prefix_nil] at hp
      simp [hp]
  | cons c s ih =>
    unfold find
    by_cases hp : needle.isPrefixOf (c :: s)
    · rw [if_pos hp]
      rw [List.isPrefixOf_iff_prefix] at hp
      constructor
      · intro h; cases h; exact ⟨by simp, by simpa using hp, by simp⟩
      · rintro ⟨-, -, hmin⟩
        rcases Nat.eq_zero_or_pos i with rfl | hi
        · rfl
        · exact absurd (by simpa using hp) (hmin 0 hi)
    · rw [if_neg hp]
      rw [List.isPrefixOf_iff_prefix] at hp
      constructor
      · intro h
        obtain ⟨k, hk, rfl⟩ := Option.map_eq_some_iff.1 h
        obtain ⟨h1, h2, h3⟩ := ih.1 hk
        refine ⟨by simpa using h1, by simpa using h2, fun j hj => ?_⟩
        cases j with
        | zero => simpa using hp
        | succ j => simpa using h3 j (by omega)
      · rintro ⟨h1, h2, h3⟩
        cases i with
        | zero => exact absurd (by simpa using h2) hp
        | succ k =>
          have hk : find needle s = some k :=
            ih.2 ⟨by simpa using h1, by simpa using h2, fun j hj => by simpa using h3 (j + 1) (by omega)⟩
          rw [hk]; rfl

theorem find_zero {needle s : List α} : find needle s = some 0 ↔ needle <+: s := by
  rw [find_eq_some_iff]; simp

theorem find_eq_none_iff {needle s : List α} : find needle s = none ↔ ¬ needle <:+: s := by
  induction s with
  | nil =>
    unfold find
    split
    · rename_i h
      simp [h]
    · rename_i h
      simp [h]
  | cons c s ih =>
    unfold find
    rw [List.infix_cons_iff, not_or, ← ih]
    split
    · rename_i hp
      rw [List.isPrefixOf_iff_prefix] at hp
      exact iff_of_false (by simp) fun h => h.1 hp
    · rename_i hp
      rw [List.isPrefixOf_iff_prefix] at hp
      rw [Option.map_eq_none_iff]
      exact ⟨fun h => ⟨hp, h⟩, And.right⟩

/-- What precedes the first occurrence is free of it. -/
theorem exists_first_infix {needle s : List α} (h : needle <:+: s) :
    ∃ a r, s = a ++ (needle ++ r) ∧ find needle s = some a.length := by
  cases hfind : find needle s with
  | none => exact absurd h (find_eq_none_iff.1 hfind)
  | some i =>
    obtain ⟨hi, ⟨r, hr⟩, -⟩ := find_eq_some_iff.1 hfind
    exact ⟨s.take i, r, by rw [hr, List.take_append_drop], by rw [List.length_take_of_le hi]⟩

/-- A search for one character behind a text that is free of it. -/
theorem find_append_of_not_mem {c : α} {s : List α} (h : c ∉ s) (r : List α) :
    find [c] (s ++ r) = (find [c] r).map (· + s.length) := by
  induction s with
  | nil => simp
  | cons d s ih =>
    have hd : ¬ c = d := fun e => h (by simp [e])
    rw [List.cons_append, find, if_neg (by simp [List.isPrefixOf, hd]), ih fun hm => h (by simp [hm])]
    cases find [c] r <;> simp; omega

/-- What precedes the first occurrence of a character is free of it. -/
theorem find_singleton {c : α} {s : List α} {i : Nat} (h : find [c] s = some i) :
    ∃ r, s = s.take i ++ c :: r ∧ c ∉ s.take i ∧ (s.take i).length = i := by
  obtain ⟨hi, ⟨r, hr⟩, hmin⟩ := find_eq_some_iff.1 h
  refine ⟨r, ?_, fun hm => ?_, List.length_take_of_le hi⟩
  · rw [← List.singleton_append, hr, List.take_append_drop]
  · obtain ⟨j, hj, he⟩ := List.getElem_of_mem hm
    rw [List.getElem_take] at he
    rw [List.length_take_of_le hi] at hj
    refine hmin j hj ⟨s.drop (j + 1), ?_⟩
    rw [List.singleton_append, ← he, ← List.drop_eq_getElem_cons]

/-- Two splits of a text at the first occurrence of a character are the same. -/
theorem append_cons_inj {c : α} {a b r s : List α} (ha : c ∉ a) (hb : c ∉ b)
    (h : a ++ c :: r = b ++ c :: s) : a = b ∧ r = s := by
  have hfind : find [c] (a ++ c :: r) = find [c] (b ++ c :: s) := by rw [h]
  have hhead : ∀ t : List α, find [c] (c :: t) = some 0 := fun t => find_zero.2 ⟨t, rfl⟩
  rw [find_append_of_not_mem ha, find_append_of_not_mem hb, hhead, hhead] at hfind
  have hlen : a.length = b.length := by simpa using hfind
  obtain ⟨hab, hcons⟩ := List.append_inj h hlen
  exact ⟨hab, (List.cons.inj hcons).2⟩

/-- The same where what follows is empty or starts with the character. -/
theorem append_inj_of_not_mem {c : α} {a b r s : List α} (ha : c ∉ a) (hb : c ∉ b)
    (hr : r = [] ∨ ∃ r', r = c :: r') (hs : s = [] ∨ ∃ s', s = c :: s') (h : a ++ r = b ++ s) :
    a = b ∧ r = s := by
  rcases hr with rfl | ⟨r', rfl⟩ <;> rcases hs with rfl | ⟨s', rfl⟩
  · simpa using h
  · refine absurd ?_ ha
    rw [List.append_nil] at h
    rw [h]
    exact List.mem_append_right b List.mem_cons_self
  · refine absurd ?_ hb
    rw [List.append_nil] at h
    rw [← h]
    exact List.mem_append_right a List.mem_cons_self
  · obtain ⟨hab, hrs⟩ := append_cons_inj ha hb h
    exact ⟨hab, by rw [hrs]⟩

theorem findFrom_append (needle p r : List α) :
    findFrom needle (p ++ r) p.length = (find needle r).map (p.length + ·) := by
  simp [findFrom]

/-! ## Skipping a set of characters -/

/-- The text behind the leading characters that belong to `set`. -/
def skipSet (set s : List α) : List α := s.dropWhile fun c => set.contains c

theorem skipSet_suffix (set s : List α) : skipSet set s <:+ s := List.dropWhile_suffix _

theorem skipSet_length_le (set s : List α) : (skipSet set s).length ≤ s.length :=
  (skipSet_suffix set s).length_le

/-- A text splits into the skipped characters and the rest. -/
theorem skipSet_split (set s : List α) :
    ∃ b, s = b ++ skipSet set s ∧ (∀ c ∈ b, c ∈ set) ∧ b.length = s.length - (skipSet set s).length := by
  refine ⟨s.takeWhile fun c => set.contains c, (List.takeWhile_append_dropWhile).symm, ?_, ?_⟩
  · intro c hc
    simpa using List.mem_takeWhile_imp hc
  · have := congrArg List.length (List.takeWhile_append_dropWhile (p := fun c => set.contains c) (l := s))
    rw [List.length_append] at this
    unfold skipSet
    omega

theorem skipSet_append {set b r : List α} (hb : ∀ c ∈ b, c ∈ set) (hr : ∀ c ∈ r.head?, c ∉ set) :
    skipSet set (b ++ r) = r := by
  induction b with
  | nil =>
    cases r with
    | nil => rfl
    | cons c r =>
      have hc : c ∉ set := hr c (by simp)
      simp [skipSet, hc]
  | cons c b ih =>
    have hc : c ∈ set := hb c (by simp)
    have := ih fun d hd => hb d (by simp [hd])
    simpa [skipSet, hc] using this

/-- `find_first_not_of` stops where `skipSet` starts. -/
theorem findFirstNotOf_eq (set s : List α) :
    findFirstNotOf set s =
      if skipSet set s = [] then none else some (s.length - (skipSet set s).length) := by
  induction s with
  | nil => rfl
  | cons c s ih =>
    unfold findFirstNotOf skipSet at *
    rw [List.findIdx?_cons, List.dropWhile_cons]
    by_cases hc : c ∈ set
    · simp only [List.contains_eq_mem, hc, decide_true, Bool.not_true, Bool.false_eq_true, if_false,
        if_true]
      simp only [List.contains_eq_mem] at ih
      rw [ih]
      split
      · rfl
      · have := skipSet_length_le set s
        simp only [skipSet, List.contains_eq_mem] at this
        simp only [Option.map_some, List.length_cons]
        congr 1
        omega
    · simp [hc]

end StringView
