import Mathlib.Data.List.Basic
import Mathlib.Order.Lattice
import Mathlib.Data.List.Lex

/-!
# `std::lower_bound`, and its use as a longest-literal lookup

* `lowerBound p l` — the halving loop over the index range of `l`; `p x` is the comparison
  `comp(x, value)`.  `lowerBound_spec` is its contract on a list partitioned by `p`.
* `probes first len j` — the indices that the loop inspects on its way to `j`.
* `DiffLt x y` — `x` and `y` differ at some position and `x` has the smaller character at the
  first one.  `lt_take_iff` shows that this is the comparison of `x` with `y` cut to the length
  of `x`, and `diffLt_of_lt` that it is `x < y` where neither text starts the other.

Principal results: `lowerBound_eq_iff` — on any list, partitioned or not, the search ends at `j`
exactly when every probe on the way there answers on which side of `j` it lies;
`lowerBound_eq_of_starts` — in a strictly sorted list of keys none of which starts another, the
truncating comparison finds the one key the text starts with; `truncLt_probe_iff` — where keys
may start one another, the probes that answer wrongly.
-/

namespace LowerBound

section Search

variable {α : Type} {p : α → Bool} {l : List α}

/-- `while (len > 0)` with `half = len >> 1` and `middle = first + half`. -/
def lowerBoundLoop (p : α → Bool) (l : List α) (first len : Nat) : Nat :=
  if len = 0 then first
  else if (l[first + len / 2]?).any p then lowerBoundLoop p l (first + len / 2 + 1) (len - len / 2 - 1)
  else lowerBoundLoop p l first (len / 2)
termination_by len
decreasing_by all_goals omega

/-- `std::lower_bound(begin, end, value, comp)`, as an index. -/
def lowerBound (p : α → Bool) (l : List α) : Nat := lowerBoundLoop p l 0 l.length

/-- Once `p` fails it fails for good. -/
def Partitioned (p : α → Bool) (l : List α) : Prop :=
  ∀ i j (hi : i < l.length) (hj : j < l.length), i ≤ j → p l[j] = true → p l[i] = true

theorem lowerBoundLoop_spec (hp : Partitioned p l) {first len : Nat} (h : first + len ≤ l.length)
    (hbelow : ∀ i (hi : i < l.length), i < first → p l[i] = true)
    (habove : ∀ i (hi : i < l.length), first + len ≤ i → p l[i] = false) :
    (∀ i (hi : i < l.length), i < lowerBoundLoop p l first len → p l[i] = true) ∧
      ∀ i (hi : i < l.length), lowerBoundLoop p l first len ≤ i → p l[i] = false := by
  fun_induction lowerBoundLoop p l first len with
  | case1 first => exact ⟨hbelow, habove⟩
  | case2 first len hlen hany ih =>
    have hm : first + len / 2 < l.length := by omega
    rw [List.getElem?_eq_getElem hm, Option.any_some] at hany
    refine ih (by omega) (fun i hi hlt => ?_) (fun i hi hle => habove i hi (by omega))
    exact hp i _ hi hm (by omega) hany
  | case3 first len hlen hany ih =>
    have hm : first + len / 2 < l.length := by omega
    rw [List.getElem?_eq_getElem hm, Option.any_some] at hany
    refine ih (by omega) hbelow (fun i hi hle => ?_)
    cases hpi : p l[i] with
    | false => rfl
    | true => exact absurd (hp _ i hm hi hle hpi) hany

/-- **Contract of `lower_bound`** on a partitioned list. -/
theorem lowerBound_spec (hp : Partitioned p l) :
    (∀ i (hi : i < l.length), i < lowerBound p l → p l[i] = true) ∧
      ∀ i (hi : i < l.length), lowerBound p l ≤ i → p l[i] = false :=
  lowerBoundLoop_spec hp (by omega) (fun _ _ h => absurd h (by omega)) (fun _ _ h => by omega)

/-- Searching by a key is searching the list of keys. -/
theorem lowerBound_map {β : Type} (f : α → β) (q : β → Bool) (l : List α) :
    lowerBound (fun x => q (f x)) l = lowerBound q (l.map f) := by
  unfold lowerBound
  rw [List.length_map]
  generalize 0 = first, l.length = len
  fun_induction lowerBoundLoop (fun x => q (f x)) l first len with
  | case1 first => conv_rhs => rw [lowerBoundLoop, if_pos rfl]
  | case2 first len hlen hany ih =>
    rw [ih]
    conv_rhs => rw [lowerBoundLoop, if_neg hlen, if_pos (by simpa [Option.any_map] using hany)]
  | case3 first len hlen hany ih =>
    rw [ih]
    conv_rhs => rw [lowerBoundLoop, if_neg hlen, if_neg (by simpa [Option.any_map] using hany)]

/-- The search stops at the first element where `p` fails. -/
theorem lowerBound_eq (hp : Partitioned p l) {i : Nat} (hi : i < l.length)
    (hbelow : ∀ j (hj : j < l.length), j < i → p l[j] = true) (hfail : p l[i] = false) :
    lowerBound p l = i := by
  obtain ⟨h1, h2⟩ := lowerBound_spec hp
  rcases Nat.lt_trichotomy (lowerBound p l) i with h | h | h
  · have := h2 (lowerBound p l) (by omega) (Nat.le_refl _)
    rw [hbelow _ _ h] at this
    cases this
  · exact h
  · have := h1 i hi h
    rw [hfail] at this
    cases this

/-! ## The way of the search -/

/-- The indices that the loop inspects if each comparison sends it towards `j`. -/
def probes (first len j : Nat) : List Nat :=
  if len = 0 then []
  else if first + len / 2 < j then
    (first + len / 2) :: probes (first + len / 2 + 1) (len - len / 2 - 1) j
  else (first + len / 2) :: probes first (len / 2) j
termination_by len
decreasing_by all_goals omega

theorem lowerBoundLoop_bounds (p : α → Bool) (l : List α) (first len : Nat) :
    first ≤ lowerBoundLoop p l first len ∧ lowerBoundLoop p l first len ≤ first + len := by
  fun_induction lowerBoundLoop p l first len with
  | case1 first => omega
  | case2 first len hlen hany ih => omega
  | case3 first len hlen hany ih => omega

theorem lowerBoundLoop_eq_iff {first len j : Nat} (hfirst : first ≤ j) (hj : j ≤ first + len)
    (hlen : first + len ≤ l.length) :
    lowerBoundLoop p l first len = j ↔
      ∀ m (hm : m < l.length), m ∈ probes first len j → (p l[m] = true ↔ m < j) := by
  fun_induction probes first len j with
  | case1 first =>
    rw [lowerBoundLoop, if_pos rfl]
    exact iff_of_true (by omega) fun _ _ hm => absurd hm List.not_mem_nil
  | case2 first len hne hlt ih =>
    -- the answer has to be yes
    have hm : first + len / 2 < l.length := by omega
    rw [lowerBoundLoop, if_neg hne, List.getElem?_eq_getElem hm, Option.any_some]
    by_cases hp : p l[first + len / 2] = true
    · rw [if_pos hp, ih (by omega) (by omega) (by omega)]
      constructor
      · intro h m hm' hmem
        rcases List.mem_cons.1 hmem with rfl | hmem
        · exact iff_of_true hp hlt
        · exact h m hm' hmem
      · exact fun h m hm' hmem => h m hm' (List.mem_cons_of_mem _ hmem)
    · rw [if_neg hp]
      have hle := (lowerBoundLoop_bounds p l first (len / 2)).2
      refine iff_of_false (by omega) fun h => hp ?_
      exact (h _ hm List.mem_cons_self).2 hlt
  | case3 first len hne hge ih =>
    -- the answer has to be no
    have hm : first + len / 2 < l.length := by omega
    rw [lowerBoundLoop, if_neg hne, List.getElem?_eq_getElem hm, Option.any_some]
    by_cases hp : p l[first + len / 2] = true
    · rw [if_pos hp]
      have hle := (lowerBoundLoop_bounds p l (first + len / 2 + 1) (len - len / 2 - 1)).1
      refine iff_of_false (by omega) fun h => hge ?_
      exact (h _ hm List.mem_cons_self).1 hp
    · rw [if_neg hp, ih (by omega) (by omega) (by omega)]
      constructor
      · intro h m hm' hmem
        rcases List.mem_cons.1 hmem with rfl | hmem
        · exact iff_of_false hp hge
        · exact h m hm' hmem
      · exact fun h m hm' hmem => h m hm' (List.mem_cons_of_mem _ hmem)

/-- **Where the search ends**, whatever the list: at `j` exactly when each probe on the way to `j`
tells on which side of `j` it lies. -/
theorem lowerBound_eq_iff {j : Nat} (hj : j ≤ l.length) :
    lowerBound p l = j ↔
      ∀ m (hm : m < l.length), m ∈ probes 0 l.length j → (p l[m] = true ↔ m < j) :=
  lowerBoundLoop_eq_iff (by omega) (by omega) (by omega)

end Search

/-! ## Truncating comparison of texts -/

section Keys

variable {α : Type} [LinearOrder α]

/-- The texts differ, and at the first difference the left one has the smaller character. -/
def DiffLt : List α → List α → Prop
  | a :: x, b :: y => a < b ∨ a = b ∧ DiffLt x y
  | _, _ => False

/-- Induction on where the texts differ: at their heads, or behind a character they share. -/
@[elab_as_elim]
theorem DiffLt.ind {motive : (x y : List α) → DiffLt x y → Prop}
    (head : ∀ a b x y (h : a < b), motive (a :: x) (b :: y) (Or.inl h))
    (cons : ∀ a x y (h : DiffLt x y), motive x y h →
      motive (a :: x) (a :: y) (Or.inr ⟨rfl, h⟩)) :
    ∀ {x y : List α} (h : DiffLt x y), motive x y h
  | [], _, h => h.elim
  | _ :: _, [], h => h.elim
  | a :: x, b :: y, h => by
    rcases h with hlt | ⟨rfl, h⟩
    · exact head a b x y hlt
    · exact cons a x y h (DiffLt.ind head cons h)

theorem lt_take_iff (x y : List α) : x < y.take x.length ↔ DiffLt x y := by
  induction x generalizing y with
  | nil => simp [DiffLt]
  | cons a x ih =>
    cases y with
    | nil => simp [DiffLt]
    | cons b y => rw [List.length_cons, List.take_succ_cons, List.cons_lt_cons_iff, ih y]; rfl

theorem diffLt_of_lt {x y : List α} (h : x < y) (hp : ¬ x <+: y) : DiffLt x y := by
  induction x generalizing y with
  | nil => exact absurd (List.nil_prefix) hp
  | cons a x ih =>
    cases y with
    | nil => simp at h
    | cons b y =>
      rcases List.cons_lt_cons_iff.1 h with hlt | ⟨rfl, hlt⟩
      · exact Or.inl hlt
      · exact Or.inr ⟨rfl, ih hlt fun hx => hp (List.cons_prefix_cons.2 ⟨rfl, hx⟩)⟩

/-- A text comes before the texts that it starts. -/
theorem lt_of_prefix_of_ne {x y : List α} (h : x <+: y) (hne : x ≠ y) : x < y := by
  obtain ⟨t, rfl⟩ := h
  induction x with
  | nil =>
    cases t with
    | nil => exact absurd rfl hne
    | cons a t => exact List.nil_lt_cons a t
  | cons a x ih =>
    rw [List.cons_append, List.cons_lt_cons_iff]
    exact Or.inr ⟨rfl, ih fun he => hne (by rw [List.cons_append, ← he])⟩

theorem DiffLt.trans {x y z : List α} (h : DiffLt x y) (h' : DiffLt y z) : DiffLt x z := by
  induction h using DiffLt.ind generalizing z with
  | head a b x y hlt =>
    cases z with
    | nil => exact h'.elim
    | cons c z =>
      rcases h' with hlt' | ⟨rfl, -⟩
      · exact Or.inl (lt_trans hlt hlt')
      · exact Or.inl hlt
  | cons a x y _ ih =>
    cases z with
    | nil => exact h'.elim
    | cons c z =>
      rcases h' with hlt' | ⟨rfl, h'⟩
      · exact Or.inl hlt'
      · exact Or.inr ⟨rfl, ih h'⟩

/-- Lengthening the larger text keeps the difference. -/
theorem DiffLt.append {x y z : List α} (h : DiffLt x y) (hp : y <+: z) : DiffLt x z := by
  obtain ⟨t, rfl⟩ := hp
  induction h using DiffLt.ind with
  | head a b x y hlt => exact Or.inl hlt
  | cons a x y _ ih => exact Or.inr ⟨rfl, ih⟩

/-- Lengthening the smaller text keeps the difference. -/
theorem DiffLt.append_left {x y z : List α} (h : DiffLt x z) (hp : x <+: y) : DiffLt y z := by
  obtain ⟨t, rfl⟩ := hp
  induction h using DiffLt.ind with
  | head a b x y hlt => exact Or.inl hlt
  | cons a x y _ ih => exact Or.inr ⟨rfl, ih⟩

theorem DiffLt.asymm {x y : List α} (h : DiffLt x y) : ¬ DiffLt y x := by
  induction h using DiffLt.ind with
  | head a b x y hlt =>
    rintro (hgt | ⟨rfl, -⟩)
    · exact lt_asymm hlt hgt
    · exact lt_irrefl _ hlt
  | cons a x y _ ih =>
    rintro (hgt | ⟨-, h'⟩)
    · exact lt_irrefl _ hgt
    · exact ih h'

theorem DiffLt.not_start {x y : List α} (h : DiffLt x y) : ¬ x <+: y := by
  induction h using DiffLt.ind with
  | head a b x y hlt =>
    intro hp
    exact absurd (List.cons_prefix_cons.1 hp).1 (ne_of_lt hlt)
  | cons a x y _ ih =>
    intro hp
    exact ih (List.cons_prefix_cons.1 hp).2

/-- No element of the list of keys starts another one. -/
def PrefixFree (keys : List (List α)) : Prop := keys.Pairwise fun x y => ¬ x <+: y ∧ ¬ y <+: x

omit [LinearOrder α] in
/-- A text starts with one of the keys at most. -/
theorem PrefixFree.unique {keys : List (List α)} (hf : PrefixFree keys) {x y value : List α}
    (hx : x ∈ keys) (hy : y ∈ keys) (hx' : x <+: value) (hy' : y <+: value) : x = y := by
  obtain ⟨i, hi, rfl⟩ := List.getElem_of_mem hx
  obtain ⟨j, hj, rfl⟩ := List.getElem_of_mem hy
  have hstarts := List.prefix_or_prefix_of_prefix hx' hy'
  rcases Nat.lt_trichotomy i j with hlt | rfl | hgt
  · have hfree := List.pairwise_iff_getElem.1 hf i j hi hj hlt
    exact absurd hstarts (not_or.2 hfree)
  · rfl
  · have hfree := List.pairwise_iff_getElem.1 hf j i hj hi hgt
    exact absurd hstarts.symm (not_or.2 hfree)

/-- The comparison of a key with the text cut to the length of the key. -/
def truncLt (value key : List α) : Bool := decide (key < value.take key.length)

theorem truncLt_iff (value key : List α) : truncLt value key = true ↔ DiffLt key value := by
  unfold truncLt
  rw [decide_eq_true_iff, lt_take_iff]

theorem diffLt_of_sorted {keys : List (List α)} (hs : keys.Pairwise (· < ·)) (hf : PrefixFree keys)
    {i j : Nat} (hi : i < keys.length) (hj : j < keys.length) (hij : i < j) :
    DiffLt keys[i] keys[j] :=
  diffLt_of_lt (List.pairwise_iff_getElem.1 hs i j hi hj hij)
    (List.pairwise_iff_getElem.1 hf i j hi hj hij).1

theorem partitioned_truncLt {keys : List (List α)} (hs : keys.Pairwise (· < ·))
    (hf : PrefixFree keys) (value : List α) : Partitioned (truncLt value) keys := by
  intro i j hi hj hij h
  rcases Nat.lt_or_eq_of_le hij with hlt | rfl
  · rw [truncLt_iff] at h ⊢
    exact (diffLt_of_sorted hs hf hi hj hlt).trans h
  · exact h

/-- **The truncating search finds the key the text starts with.** -/
theorem lowerBound_eq_of_starts {keys : List (List α)} (hs : keys.Pairwise (· < ·))
    (hf : PrefixFree keys) {value : List α} {i : Nat} (hi : i < keys.length)
    (hp : keys[i] <+: value) : lowerBound (truncLt value) keys = i := by
  refine lowerBound_eq (partitioned_truncLt hs hf value) hi (fun j hj hlt => ?_) ?_
  · rw [truncLt_iff]
    exact (diffLt_of_sorted hs hf hj hi hlt).append hp
  · cases h : truncLt value keys[i] with
    | false => rfl
    | true => exact absurd hp ((truncLt_iff _ _).1 h).not_start

/-- **The probes that answer wrongly** on the way to a key that the text starts with: the keys
that start this one, and those that it starts and that lie below the text. -/
theorem truncLt_probe_iff {keys : List (List α)} (hs : keys.Pairwise (· < ·)) {value : List α}
    {j m : Nat} (hj : j < keys.length) (hm : m < keys.length) (hp : keys[j] <+: value) :
    (truncLt value keys[m] = true ↔ m < j) ↔
      m = j ∨ ¬ keys[m] <+: keys[j] ∧ ¬ (keys[j] <+: keys[m] ∧ DiffLt keys[m] value) := by
  rw [truncLt_iff]
  rcases Nat.lt_trichotomy m j with hlt | rfl | hgt
  · have hsorted : keys[m] < keys[j] := List.pairwise_iff_getElem.1 hs m j hm hj hlt
    by_cases hstart : keys[m] <+: keys[j]
    · refine iff_of_false (fun h => (h.2 hlt).not_start (hstart.trans hp)) ?_
      rintro (rfl | ⟨h, -⟩)
      · omega
      · exact h hstart
    · have hdiff : DiffLt keys[m] keys[j] := diffLt_of_lt hsorted hstart
      refine iff_of_true (iff_of_true (hdiff.append hp) hlt) (Or.inr ⟨hstart, fun h => ?_⟩)
      have hlen : keys[j] ≠ keys[m] := fun he => lt_irrefl _ (he ▸ hsorted)
      exact lt_asymm hsorted (lt_of_prefix_of_ne h.1 hlen)
  · exact iff_of_true (iff_of_false (fun h => h.not_start hp) (Nat.lt_irrefl m)) (Or.inl rfl)
  · have hsorted : keys[j] < keys[m] := List.pairwise_iff_getElem.1 hs j m hj hm hgt
    have hnot : ¬ keys[m] <+: keys[j] := fun h => by
      have hlen : keys[m] ≠ keys[j] := fun he => lt_irrefl _ (he ▸ hsorted)
      exact lt_asymm hsorted (lt_of_prefix_of_ne h hlen)
    by_cases hstart : keys[j] <+: keys[m]
    · simp only [hnot, hstart, Nat.not_lt_of_gt hgt, Nat.ne_of_gt hgt, iff_false, true_and,
        not_false_iff, false_or]
    · have hdiff : DiffLt value keys[m] := (diffLt_of_lt hsorted hstart).append_left hp
      refine iff_of_true (iff_of_false hdiff.asymm (Nat.not_lt_of_gt hgt)) (Or.inr ⟨hnot, ?_⟩)
      exact fun h => hstart h.1

end Keys

end LowerBound
