import Mathlib.Data.Nat.Digits.Lemmas
import Mathlib.Data.List.TakeWhile

/-!
# `std::from_chars` / `std::to_chars` for integers in base 10

* `IsNumeral t v` — the text `t` is an optional minus sign followed by at least one digit and
  denotes `v` (leading zeros allowed, no plus sign, no blanks).
* `fromChars lo hi s` — the longest numeral at the start of `s`, when its value lies in
  `lo … hi`; the result is the value and the number of characters read.
* `toChars v` — the shortest decimal text of `v`; `toCharsInto room v` writes it only where it
  fits, and nothing otherwise.

Principal results: `fromChars_eq_some_iff` (what is accepted), `isNumeral_toChars` (printing
gives a numeral of the value printed), `natDigits_ofDigits_iff` (the texts of digits that are
printed) and `IsNumeral.unique`.
-/

namespace CharConv

def isDigit (c : UInt8) : Bool := 48 ≤ c && c ≤ 57

/-- `'-'`. -/
def minus : UInt8 := 45

def digitVal (c : UInt8) : Nat := c.toNat - 48

def digitChar (d : Nat) : UInt8 := UInt8.ofNat (48 + d)

/-- Value of a digit text, most significant digit first. -/
def ofDigits (ds : List UInt8) : Nat := Nat.ofDigits 10 (ds.reverse.map digitVal)

/-- A non-empty text of digits. -/
def Digits (t : List UInt8) : Prop := t ≠ [] ∧ ∀ c ∈ t, isDigit c = true

/-- `t` is a decimal numeral of `v`. -/
def IsNumeral (t : List UInt8) (v : Int) : Prop :=
  (Digits t ∧ v = ofDigits t) ∨ ∃ ds, t = minus :: ds ∧ Digits ds ∧ v = -(ofDigits ds : Int)

/-- `std::from_chars(first, last, num)` for an integer type with the range `lo … hi`. -/
def fromChars (lo hi : Int) (s : List UInt8) : Option (Int × Nat) :=
  let neg := s.head? == some minus
  let ds := (if neg then s.tail else s).takeWhile isDigit
  let v : Int := if neg then -(ofDigits ds : Int) else ofDigits ds
  if ds = [] then none
  else if lo ≤ v ∧ v ≤ hi then some (v, (if neg then 1 else 0) + ds.length)
  else none

/-- Decimal digits of a natural number. -/
def natDigits (n : Nat) : List UInt8 :=
  if n = 0 then [48] else (Nat.digits 10 n).reverse.map digitChar

def toChars (v : Int) : List UInt8 :=
  if v < 0 then minus :: natDigits v.natAbs else natDigits v.natAbs

/-- `std::to_chars(first, last, v)` with `room` characters between `first` and `last`. -/
def toCharsInto (room : Nat) (v : Int) : Option (List UInt8) :=
  if (toChars v).length ≤ room then some (toChars v) else none

/-! ## Numerals -/

theorem isDigit_minus : isDigit minus = false := by decide

theorem Digits.head_ne_minus {t : List UInt8} (h : Digits t) : t.head? ≠ some minus := by
  intro he
  have hm : minus ∈ t := List.mem_of_mem_head? he
  have := h.2 minus hm
  rw [isDigit_minus] at this
  cases this

theorem IsNumeral.ne_nil {t : List UInt8} {v : Int} (h : IsNumeral t v) : t ≠ [] := by
  rcases h with ⟨h, -⟩ | ⟨ds, rfl, -, -⟩
  · exact h.1
  · simp

/-- A numeral denotes one value only. -/
theorem IsNumeral.unique {t : List UInt8} {v w : Int} (hv : IsNumeral t v) (hw : IsNumeral t w) :
    v = w := by
  rcases hv with ⟨h1, rfl⟩ | ⟨ds, rfl, h1, rfl⟩ <;> rcases hw with ⟨h2, rfl⟩ | ⟨es, he, h2, rfl⟩
  · rfl
  · exact absurd (by rw [he]; rfl) h1.head_ne_minus
  · exact absurd rfl h2.head_ne_minus
  · cases he; rfl

/-- The first character of a numeral is a digit or the minus sign. -/
theorem IsNumeral.chars {t : List UInt8} {v : Int} (h : IsNumeral t v) :
    ∀ c ∈ t, isDigit c = true ∨ c = minus := by
  rcases h with ⟨h, -⟩ | ⟨ds, rfl, h, -⟩ <;> intro c hc
  · exact Or.inl (h.2 c hc)
  · rcases List.mem_cons.1 hc with rfl | hc
    · exact Or.inr rfl
    · exact Or.inl (h.2 c hc)

/-! ## `from_chars` -/

theorem takeWhile_digits {ds r : List UInt8} (hd : ∀ c ∈ ds, isDigit c = true)
    (hr : ∀ c ∈ r.head?, isDigit c = false) : (ds ++ r).takeWhile isDigit = ds := by
  rw [List.takeWhile_append_of_pos hd]
  cases r with
  | nil => simp
  | cons c r => simp [hr c (by simp)]

theorem takeWhile_split (s : List UInt8) :
    ∃ r, s = s.takeWhile isDigit ++ r ∧ ∀ c ∈ r.head?, isDigit c = false := by
  refine ⟨s.dropWhile isDigit, (List.takeWhile_append_dropWhile).symm, fun c hc => ?_⟩
  have := List.head?_dropWhile_not isDigit s
  rw [Option.mem_def.1 hc] at this
  simpa using this

/-- **What `from_chars` accepts**: the longest numeral at the start of the text, in range. -/
theorem fromChars_eq_some_iff {lo hi : Int} {s : List UInt8} {v : Int} {n : Nat} :
    fromChars lo hi s = some (v, n) ↔
      ∃ t r, s = t ++ r ∧ n = t.length ∧ IsNumeral t v ∧ lo ≤ v ∧ v ≤ hi ∧
        ∀ c ∈ r.head?, isDigit c = false := by
  constructor
  · intro h
    unfold fromChars at h
    by_cases hneg : s.head? = some minus
    · obtain ⟨ds, rfl⟩ : ∃ ds, s = minus :: ds := by
        cases s with
        | nil => cases hneg
        | cons c ds => simp at hneg; exact ⟨ds, by rw [hneg]⟩
      simp only [List.head?_cons, beq_self_eq_true, if_true, List.tail_cons] at h
      split at h
      · cases h
      rename_i hne
      split at h
      · rename_i hrange
        cases h
        obtain ⟨r, hr, hstop⟩ := takeWhile_split ds
        refine ⟨minus :: ds.takeWhile isDigit, r, by rw [List.cons_append, ← hr],
          by rw [List.length_cons, Nat.add_comm],
          Or.inr ⟨_, rfl, ⟨hne, fun c hc => List.mem_takeWhile_imp hc⟩, rfl⟩, hrange.1, hrange.2, hstop⟩
      · cases h
    · have hb : (s.head? == some minus) = false := by simpa using hneg
      simp only [hb, Bool.false_eq_true, if_false, Nat.zero_add] at h
      split at h
      · cases h
      rename_i hne
      split at h
      · rename_i hrange
        cases h
        obtain ⟨r, hr, hstop⟩ := takeWhile_split s
        exact ⟨s.takeWhile isDigit, r, hr, rfl,
          Or.inl ⟨⟨hne, fun c hc => List.mem_takeWhile_imp hc⟩, rfl⟩, hrange.1, hrange.2, hstop⟩
      · cases h
  · rintro ⟨t, r, rfl, rfl, hnum, hlo, hhi, hstop⟩
    unfold fromChars
    rcases hnum with ⟨hd, rfl⟩ | ⟨ds, rfl, hd, rfl⟩
    · have hhead : ((t ++ r).head? == some minus) = false := by
        rw [List.head?_append_of_ne_nil _ hd.1]
        simpa using hd.head_ne_minus
      simp only [hhead, Bool.false_eq_true, if_false, Nat.zero_add]
      rw [takeWhile_digits hd.2 hstop, if_neg hd.1, if_pos ⟨hlo, hhi⟩]
    · simp only [List.cons_append, List.head?_cons, beq_self_eq_true, if_true, List.tail_cons]
      rw [takeWhile_digits hd.2 hstop, if_neg hd.1, if_pos ⟨hlo, hhi⟩, List.length_cons, Nat.add_comm]

/-- Text that starts with neither a digit nor a minus sign does not matter behind a numeral. -/
theorem fromChars_append (lo hi : Int) {s r : List UInt8}
    (hr : ∀ c ∈ r.head?, isDigit c = false ∧ c ≠ minus) :
    fromChars lo hi (s ++ r) = fromChars lo hi s := by
  have htake : ∀ t : List UInt8, (t ++ r).takeWhile isDigit = t.takeWhile isDigit := by
    intro t
    induction t with
    | nil =>
      cases r with
      | nil => rfl
      | cons c r => simp [(hr c rfl).1]
    | cons c t ih =>
      rw [List.cons_append, List.takeWhile_cons, List.takeWhile_cons, ih]
  unfold fromChars
  cases s with
  | nil =>
    have hnil := htake []
    rw [List.nil_append] at hnil ⊢
    have hhead : (r.head? == some minus) = false := by
      rw [beq_eq_false_iff_ne]
      exact fun h => (hr minus h).2 rfl
    simp [hhead, hnil]
  | cons c s =>
    have hdigits : ∀ neg : Bool, (if neg = true then s ++ r else c :: s ++ r).takeWhile isDigit =
        (if neg = true then s else c :: s).takeWhile isDigit := by
      intro neg
      cases neg with
      | true => exact htake s
      | false => exact htake (c :: s)
    rw [List.cons_append, List.head?_cons, List.head?_cons, List.tail_cons, List.tail_cons,
      ← List.cons_append]
    simp only [hdigits]

theorem fromChars_length_le {lo hi : Int} {s : List UInt8} {v : Int} {n : Nat}
    (h : fromChars lo hi s = some (v, n)) : n ≤ s.length := by
  obtain ⟨t, r, rfl, rfl, -⟩ := fromChars_eq_some_iff.1 h
  simp

/-! ## `to_chars` -/

theorem digitVal_digitChar : ∀ d < 10, digitVal (digitChar d) = d := by decide

theorem isDigit_digitChar : ∀ d < 10, isDigit (digitChar d) = true := by decide

theorem ofDigits_natDigits (n : Nat) : ofDigits (natDigits n) = n := by
  unfold ofDigits natDigits
  split
  · rename_i h; subst h; decide
  · rw [← List.map_reverse, List.reverse_reverse, List.map_map]
    have : (Nat.digits 10 n).map (digitVal ∘ digitChar) = Nat.digits 10 n := by
      conv_rhs => rw [← List.map_id (Nat.digits 10 n)]
      exact List.map_congr_left fun d hd =>
        digitVal_digitChar d (Nat.digits_lt_base (by decide) hd)
    rw [this, Nat.ofDigits_digits]

theorem digits_natDigits (n : Nat) : Digits (natDigits n) := by
  unfold natDigits
  split
  · exact ⟨by simp, by decide +kernel⟩
  · rename_i h
    refine ⟨by simpa [Nat.digits_ne_nil_iff_ne_zero] using h, fun c hc => ?_⟩
    obtain ⟨d, hd, rfl⟩ := List.mem_map.1 hc
    exact isDigit_digitChar d (Nat.digits_lt_base (by decide) (List.mem_reverse.1 hd))

theorem digitChar_digitVal {c : UInt8} (h : isDigit c = true) : digitVal c < 10 ∧ digitChar (digitVal c) = c := by
  unfold isDigit at h
  simp only [Bool.and_eq_true, decide_eq_true_eq, UInt8.le_iff_toNat_le] at h
  have h48 : 48 ≤ c.toNat := h.1
  have h57 : c.toNat ≤ 57 := h.2
  unfold digitVal digitChar
  refine ⟨by omega, ?_⟩
  rw [Nat.add_sub_cancel' h48, UInt8.ofNat_toNat]

/-- The leading digit of what is printed. -/
theorem natDigits_head {n : Nat} (h : n ≠ 0) : (natDigits n).head? ≠ some 48 := by
  unfold natDigits
  rw [if_neg h, List.head?_map, List.head?_reverse]
  intro hhead
  obtain ⟨d, hd, hzero⟩ := Option.map_eq_some_iff.1 hhead
  have hne : Nat.digits 10 n ≠ [] := Nat.digits_ne_nil_iff_ne_zero.2 h
  have hlast : (Nat.digits 10 n).getLast hne = d := by
    rwa [List.getLast?_eq_some_getLast hne, Option.some_inj] at hd
  have hlt : d < 10 := Nat.digits_lt_base (by decide) (hlast ▸ List.getLast_mem hne)
  have hpos := Nat.getLast_digit_ne_zero 10 h
  have hval := digitVal_digitChar d hlt
  rw [hzero] at hval
  exact hpos (hlast.trans hval.symm)

/-- **A text of digits is printed** exactly when it is a single zero or starts with another digit. -/
theorem natDigits_ofDigits_iff {ds : List UInt8} (h : Digits ds) :
    natDigits (ofDigits ds) = ds ↔ ds = [48] ∨ ds.head? ≠ some 48 := by
  constructor
  · intro heq
    by_cases hzero : ofDigits ds = 0
    · rw [hzero] at heq
      exact Or.inl heq.symm
    · exact Or.inr (heq ▸ natDigits_head hzero)
  · rintro (rfl | hhead)
    · decide +kernel
    · obtain ⟨c, cs, rfl⟩ := List.exists_cons_of_ne_nil h.1
      have hc : digitVal c ≠ 0 := by
        intro hzero
        have hchar := (digitChar_digitVal (h.2 c List.mem_cons_self)).2
        rw [hzero] at hchar
        exact hhead (congrArg some hchar.symm)
      have hdigits : Nat.digits 10 (ofDigits (c :: cs)) = (c :: cs).reverse.map digitVal := by
        refine Nat.digits_ofDigits 10 (by decide) _ (fun d hd => ?_) fun hne => ?_
        · obtain ⟨e, he, rfl⟩ := List.mem_map.1 hd
          exact (digitChar_digitVal (h.2 e (List.mem_reverse.1 he))).1
        · simpa using hc
      have hpos : ofDigits (c :: cs) ≠ 0 := by
        intro hzero
        rw [hzero] at hdigits
        simp at hdigits
      have hback : ∀ d ∈ c :: cs, digitChar (digitVal d) = d :=
        fun d hd => (digitChar_digitVal (h.2 d hd)).2
      rw [natDigits, if_neg hpos, hdigits, ← List.map_reverse, List.reverse_reverse, List.map_map]
      exact (List.map_congr_left hback).trans (List.map_id _)

/-- Printing gives a numeral of the value printed. -/
theorem isNumeral_toChars (v : Int) : IsNumeral (toChars v) v := by
  unfold toChars
  split
  · exact Or.inr ⟨_, rfl, digits_natDigits _, by rw [ofDigits_natDigits]; omega⟩
  · exact Or.inl ⟨digits_natDigits _, by rw [ofDigits_natDigits]; omega⟩

theorem natDigits_length_le {n k : Nat} (hk : 0 < k) (h : n < 10 ^ k) : (natDigits n).length ≤ k := by
  unfold natDigits
  split
  · exact hk
  · rw [List.length_map, List.length_reverse, Nat.digits_length_le_iff (by decide)]
    exact h

theorem ofDigits_lt {ds : List UInt8} (h : Digits ds) : ofDigits ds < 10 ^ ds.length := by
  have hlt : ∀ d ∈ ds.reverse.map digitVal, d < 10 := by
    intro d hd
    obtain ⟨c, hc, rfl⟩ := List.mem_map.1 hd
    have hdigit := h.2 c (List.mem_reverse.1 hc)
    unfold isDigit at hdigit
    simp only [Bool.and_eq_true, decide_eq_true_eq, UInt8.le_iff_toNat_le] at hdigit
    have h57 : c.toNat ≤ 57 := hdigit.2
    unfold digitVal
    omega
  have h10 := Nat.ofDigits_lt_base_pow_length (by decide) hlt
  rwa [List.length_map, List.length_reverse] at h10

/-- **No numeral is shorter than what is printed.** -/
theorem IsNumeral.toChars_length_le {t : List UInt8} {v : Int} (h : IsNumeral t v) :
    (toChars v).length ≤ t.length := by
  rcases h with ⟨hd, rfl⟩ | ⟨ds, rfl, hd, rfl⟩
  · have hprinted := natDigits_length_le (List.length_pos_iff.2 hd.1) (ofDigits_lt hd)
    rw [toChars, if_neg (by omega), Int.natAbs_natCast]
    exact hprinted
  · have hprinted := natDigits_length_le (List.length_pos_iff.2 hd.1) (ofDigits_lt hd)
    rw [toChars, Int.natAbs_neg, Int.natAbs_natCast, List.length_cons]
    split
    · rw [List.length_cons]
      omega
    · omega

theorem toChars_ne_nil (v : Int) : toChars v ≠ [] := (isNumeral_toChars v).ne_nil

theorem toCharsInto_of_le {room : Nat} {v : Int} (h : (toChars v).length ≤ room) :
    toCharsInto room v = some (toChars v) := if_pos h

theorem toCharsInto_of_lt {room : Nat} {v : Int} (h : room < (toChars v).length) :
    toCharsInto room v = none := if_neg (by omega)

end CharConv
