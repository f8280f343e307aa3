import Mathlib.Data.List.Basic

/-!
# Moving a range of a buffer down, in place

`copyDown off n buf` is the loop `for (i = 0; i < n; ++i) buf[i] = buf[off + i]`, which reads
from the buffer it writes to.  Reading beyond the end changes nothing here.

Principal result: `take_copyDown` — the first `n` elements are then those that stood at `off`,
also where the two ranges overlap.
-/

namespace CopyDown

variable {α : Type}

/-- The iterations from `i` on, `n` of them. -/
def copyDownFrom (off : Nat) : Nat → Nat → List α → List α
  | _, 0, buf => buf
  | i, n + 1, buf =>
    copyDownFrom off (i + 1) n (match buf[off + i]? with
      | some c => buf.set i c
      | none => buf)

def copyDown (off n : Nat) (buf : List α) : List α := copyDownFrom off 0 n buf

theorem copyDownFrom_length (off : Nat) :
    ∀ (n i : Nat) (buf : List α), (copyDownFrom off i n buf).length = buf.length
  | 0, _, _ => rfl
  | n + 1, i, buf => by
    rw [copyDownFrom, copyDownFrom_length off n]
    split <;> simp

theorem copyDown_length (off n : Nat) (buf : List α) : (copyDown off n buf).length = buf.length :=
  copyDownFrom_length off n 0 buf

/-- Every element in the range is the one that stood `off` further in the original buffer: it is
read before the copy reaches it. -/
theorem copyDownFrom_getElem? (off : Nat) : ∀ (n i : Nat) (buf : List α), off + i + n ≤ buf.length →
    ∀ j, (copyDownFrom off i n buf)[j]? = if i ≤ j ∧ j < i + n then buf[off + j]? else buf[j]?
  | 0, i, buf, _, j => by
    rw [copyDownFrom, if_neg (by omega)]
  | n + 1, i, buf, h, j => by
    have hget : buf[off + i]? = some buf[off + i] := List.getElem?_eq_getElem (by omega)
    rw [copyDownFrom, hget]
    simp only
    rw [copyDownFrom_getElem? off n (i + 1) _ (by rw [List.length_set]; omega) j]
    by_cases hij : i = j
    · subst hij
      rw [if_neg (by omega), if_pos (by omega), List.getElem?_set_self (by omega), hget]
    · rw [List.getElem?_set_ne hij]
      by_cases hr : i + 1 ≤ j ∧ j < i + 1 + n
      · rw [if_pos hr, if_pos (by omega), List.getElem?_set_ne (by omega)]
      · rw [if_neg hr, if_neg (by omega)]

/-- **The range moved** is the one that stood at `off`. -/
theorem take_copyDown {off n : Nat} {buf : List α} (h : off + n ≤ buf.length) :
    (copyDown off n buf).take n = (buf.drop off).take n := by
  apply List.ext_getElem?
  intro j
  by_cases hj : j < n
  · rw [List.getElem?_take_of_lt hj, List.getElem?_take_of_lt hj, List.getElem?_drop, copyDown,
      copyDownFrom_getElem? off n 0 buf (by omega) j, if_pos (by omega)]
  · rw [List.getElem?_take_eq_none (by omega), List.getElem?_take_eq_none (by omega)]

end CopyDown
