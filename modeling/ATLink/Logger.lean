import ATLink.Lib.Run
import ATLink.Types

/-!
# Lines of the log

Reference model of `Logger::Line` of `platform/api/Logger.h`: the overloads of `operator<<` and
what they share, `buf` and `len`.

* `Line` — the line; `writes` is not in the source: the indices of `buf` written so far.
* `Line.put` — the overload that an argument selects.  `none` is the failed `assert` on a custom
  enum value without a string.
* `Line.InBounds` — nothing is written behind the buffer, and `available()` has not wrapped.
* `extent` — how far a text reaches once its line breaks are spelled out.

Principal result: `Line.inBounds_iff` — a line stays in its buffer after each call if and only if
every text view logged on the way has room for its line breaks.
-/

namespace ATLink

namespace Logger

open CharConv LabelledRun

/-- `static constexpr std::size_t SIZE = 256U`. -/
def SIZE : Nat := 256

structure Line where
  enabled : Bool
  buf : Text
  len : Nat
  writes : List Nat

/-- An argument of `operator<<`.  A C string is the characters in front of its NUL, and may be
`nullptr`. -/
inductive Argument where
  | view (str : Text)
  | buffer (b : Text)
  | enum (e : AEnum)
  | cString (s : Option Text)
  | char (c : Byte)
  | bool (v : Bool)
  | int (v : Int)

namespace Line

/-- The constructor; `enabled` is what `backend.wouldLog(level)` answers. -/
def init (enabled : Bool) : Line := ⟨enabled, List.replicate SIZE 0, 0, []⟩

/-- `SIZE - len` in `std::size_t`. -/
def available (s : Line) : Nat := (SIZE + 2 ^ 64 - s.len) % 2 ^ 64

/-- Consecutive characters written from `buf.data() + pos` on; behind the array they reach other
memory. -/
def store (s : Line) (pos : Nat) : Text → Line
  | [] => s
  | c :: txt => store { s with buf := s.buf.set pos c, writes := s.writes ++ [pos] } (pos + 1) txt

/-- `buf[len++] = c`. -/
def append (s : Line) (c : Byte) : Line := { s.store s.len [c] with len := s.len + 1 }

/-- `len += snprintf(buf.data() + len, 5U, mark)` for a mark of four characters: a NUL is written
behind it and not counted. -/
def appendMark (s : Line) (mark : Text) : Line :=
  { s.store s.len (mark ++ [0]) with len := s.len + 4 }

/-- The body of the loop over a text view. -/
def putViewChar (s : Line) (c : Byte) : Line :=
  if c = 13 then s.appendMark (text "<CR>")
  else if c = 10 then s.appendMark (text "<LF>")
  else s.append c

/-- `operator<<(ReadOnlyText str)`. -/
def putView (s : Line) (str : Text) : Line :=
  if s.enabled then
    let n := if str.length ≤ s.available then str.length else s.available
    (str.take n).foldl putViewChar s
  else s

/-- `operator<<(MutableBuffer b)`. -/
def putBuffer (s : Line) (b : Text) : Line :=
  if s.enabled then
    let n := if b.length ≤ s.available then b.length else s.available
    { s.store s.len (b.take n) with len := s.len + n }
  else s

/-- `operator<<(const AEnum &e)`.  `stringify` gets all that is left of the buffer and may write
anywhere in it. -/
def putEnum (s : Line) (e : AEnum) : Option Line :=
  if s.enabled then
    let rem := s.buf.drop s.len
    (e.stringify rem).map fun r =>
      { s with
        buf := s.buf.take s.len ++ r.2
        len := if r.1 < s.available then s.len + r.1 else s.len
        writes := s.writes ++ List.range' s.len s.available }
  else some s

/-- `while (*s && (len < SIZE))`. -/
def putChars (s : Line) : Text → Line
  | [] => s
  | c :: str => if c ≠ 0 ∧ s.len < SIZE then putChars (s.append c) str else s

/-- `operator<<(const char *s)`. -/
def putCString (s : Line) (str : Option Text) : Line :=
  match str with
  | some str => if s.enabled then s.putChars str else s
  | none => s

/-- `operator<<(char c)`. -/
def putChar (s : Line) (c : Byte) : Line := if s.enabled ∧ s.len < SIZE then s.append c else s

/-- `operator<<(bool v)`. -/
def putBool (s : Line) (v : Bool) : Line :=
  s.putCString (some (if v then text "true" else text "false"))

/-- `operator<<(T v)` for integers.  `to_chars` may write anywhere in a range that is too small. -/
def putInt (s : Line) (v : Int) : Line :=
  if s.enabled ∧ 0 < s.available then
    match toCharsInto (SIZE - s.len) v with
    | some txt => { s.store s.len txt with len := s.len + txt.length }
    | none => { s with writes := s.writes ++ List.range' s.len (SIZE - s.len) }
  else s

/-- The overload of `operator<<` that an argument selects. -/
def put (s : Line) : Argument → Option Line
  | .view str => some (s.putView str)
  | .buffer b => some (s.putBuffer b)
  | .enum e => s.putEnum e
  | .cString str => some (s.putCString str)
  | .char c => some (s.putChar c)
  | .bool v => some (s.putBool v)
  | .int v => some (s.putInt v)

/-! ## Inside the buffer -/

/-- The length and every index written are inside the buffer, and so is `available()`. -/
structure InBounds (s : Line) : Prop where
  len_le : s.len ≤ SIZE
  writes : ∀ i ∈ s.writes, i < SIZE
  available : s.available + s.len = SIZE

theorem available_of_le {s : Line} (h : s.len ≤ SIZE) : s.available = SIZE - s.len := by
  unfold available
  unfold SIZE at *
  omega

theorem inBounds_iff_writes {s : Line} :
    s.InBounds ↔ s.len ≤ SIZE ∧ ∀ i ∈ s.writes, i < SIZE := by
  refine ⟨fun h => ⟨h.len_le, h.writes⟩, fun ⟨hlen, hwrites⟩ => ⟨hlen, hwrites, ?_⟩⟩
  rw [available_of_le hlen]
  omega

theorem init_inBounds (enabled : Bool) : (init enabled).InBounds :=
  inBounds_iff_writes.2 ⟨Nat.zero_le _, fun i hi => by cases hi⟩

variable {s s' : Line}

@[simp] theorem store_writes (txt : Text) (pos : Nat) :
    (s.store pos txt).writes = s.writes ++ List.range' pos txt.length := by
  induction txt generalizing s pos with
  | nil => simp [store]
  | cons c txt ih => simp [store, ih, List.range'_succ]

/-- Writing from `len` on, and moving `len` over no more than that, stays inside where it ends
inside. -/
theorem inBounds_of_writes (hs : s.InBounds) {n : Nat} (hroom : s.len + n ≤ SIZE)
    (hwrites : s'.writes = s.writes ++ List.range' s.len n) (hlen : s'.len ≤ s.len + n) :
    s'.InBounds := by
  refine inBounds_iff_writes.2 ⟨by omega, fun i hi => ?_⟩
  rw [hwrites, List.mem_append, List.mem_range'_1] at hi
  rcases hi with hi | hi
  · exact hs.writes i hi
  · omega

theorem append_inBounds (hs : s.InBounds) (hlen : s.len < SIZE) (c : Byte) :
    (s.append c).InBounds :=
  inBounds_of_writes hs hlen (store_writes [c] s.len) (Nat.le_refl _)

theorem putBuffer_inBounds (hs : s.InBounds) (b : Text) : (s.putBuffer b).InBounds := by
  have havailable := hs.available
  unfold putBuffer
  split
  · simp only
    split
    · rename_i hle
      rw [List.take_length]
      exact inBounds_of_writes hs (by omega) (store_writes b s.len) (Nat.le_refl _)
    · rename_i hle
      have hlen : (b.take s.available).length = s.available := List.length_take_of_le (by omega)
      refine inBounds_of_writes hs (n := s.available) (by omega) ?_ (Nat.le_refl _)
      have hwrites := store_writes (s := s) (b.take s.available) s.len
      rwa [hlen] at hwrites
  · exact hs

theorem putEnum_inBounds (hs : s.InBounds) {e : AEnum} (h : s.putEnum e = some s') : s'.InBounds := by
  have havailable := hs.available
  unfold putEnum at h
  split at h
  · obtain ⟨⟨n, rem⟩, -, rfl⟩ := Option.map_eq_some_iff.1 h
    refine inBounds_of_writes hs (n := s.available) (by omega) rfl ?_
    show (if n < s.available then s.len + n else s.len) ≤ s.len + s.available
    split <;> omega
  · cases h
    exact hs

theorem putChars_inBounds : ∀ (str : Text) {s : Line}, s.InBounds → (s.putChars str).InBounds
  | [], _, hs => hs
  | c :: str, s, hs => by
    unfold putChars
    split
    · rename_i hroom
      exact putChars_inBounds str (append_inBounds hs hroom.2 c)
    · exact hs

theorem putCString_inBounds (hs : s.InBounds) (str : Option Text) : (s.putCString str).InBounds := by
  unfold putCString
  split
  · split
    · exact putChars_inBounds _ hs
    · exact hs
  · exact hs

theorem putChar_inBounds (hs : s.InBounds) (c : Byte) : (s.putChar c).InBounds := by
  unfold putChar
  split
  · rename_i hroom
    exact append_inBounds hs hroom.2 c
  · exact hs

theorem putInt_inBounds (hs : s.InBounds) (v : Int) : (s.putInt v).InBounds := by
  have hle := hs.len_le
  unfold putInt
  split
  · unfold toCharsInto
    split
    · rename_i txt htxt
      split at htxt
      · rename_i hfit
        cases htxt
        exact inBounds_of_writes hs (by omega) (store_writes _ s.len) (Nat.le_refl _)
      · cases htxt
    · exact inBounds_of_writes hs (by omega) rfl (Nat.le_add_right _ _)
  · exact hs

/-! ## Text views -/

/-- CR and LF. -/
def isLineBreak (c : Byte) : Bool := c = 13 || c = 10

/-- How far a text reaches behind `len`: four characters for a line break and one for any other,
and the NUL behind a line break at the end. -/
def extent (txt : Text) : Nat :=
  txt.length + 3 * txt.countP isLineBreak + if txt.getLast?.any isLineBreak then 1 else 0

/-- The characters written for one character of a view. -/
def touched (c : Byte) : Nat := if isLineBreak c then 5 else 1

/-- How far they move `len`. -/
def moved (c : Byte) : Nat := if isLineBreak c then 4 else 1

theorem extent_cons (c : Byte) (txt : Text) :
    extent (c :: txt) = max (touched c) (moved c + extent txt) := by
  have hcount := List.countP_cons (p := isLineBreak) (a := c) (l := txt)
  unfold extent touched moved
  rw [hcount, List.length_cons]
  cases txt with
  | nil => cases hc : isLineBreak c <;> simp [hc]
  | cons d txt =>
    rw [List.getLast?_cons_cons, List.length_cons]
    cases isLineBreak c <;> simp only [if_true, Bool.false_eq_true, if_false] <;> omega

/-- One character of a view is a store from `len` on. -/
theorem putViewChar_eq (s : Line) (c : Byte) : ∃ txt, txt.length = touched c ∧
    s.putViewChar c = { s.store s.len txt with len := s.len + moved c } := by
  unfold putViewChar
  by_cases hcr : c = 13
  · subst hcr
    exact ⟨text "<CR>" ++ [0], rfl, rfl⟩
  · rw [if_neg hcr]
    by_cases hlf : c = 10
    · subst hlf
      exact ⟨text "<LF>" ++ [0], rfl, rfl⟩
    · have hc : isLineBreak c = false := by simp [isLineBreak, hcr, hlf]
      rw [if_neg hlf]
      refine ⟨[c], ?_, ?_⟩
      · rw [touched, hc]
        rfl
      · rw [moved, hc]
        rfl

theorem putViewChar_len (s : Line) (c : Byte) : (s.putViewChar c).len = s.len + moved c := by
  obtain ⟨txt, -, hput⟩ := putViewChar_eq s c
  rw [hput]

/-- **One character of a view** stays inside exactly where it has room. -/
theorem putViewChar_inBounds_iff (s : Line) (c : Byte) :
    (s.putViewChar c).InBounds ↔ s.InBounds ∧ s.len + touched c ≤ SIZE := by
  obtain ⟨txt, htxt, hput⟩ := putViewChar_eq s c
  have hwrites : (s.putViewChar c).writes = s.writes ++ List.range' s.len (touched c) := by
    rw [hput, ← htxt]
    exact store_writes txt s.len
  have hpos : 0 < touched c ∧ moved c ≤ touched c := by
    unfold touched moved
    split <;> decide
  constructor
  · intro h
    have hall := h.writes
    rw [hwrites] at hall
    have hlast : s.len + touched c - 1 < SIZE := by
      apply hall
      rw [List.mem_append, List.mem_range'_1]
      omega
    refine ⟨inBounds_iff_writes.2 ⟨by omega, fun i hi => ?_⟩, by omega⟩
    exact hall i (List.mem_append_left _ hi)
  · rintro ⟨hs, hroom⟩
    refine inBounds_of_writes hs hroom hwrites ?_
    rw [putViewChar_len]
    omega

/-- So does a whole view. -/
theorem foldl_putViewChar_inBounds_iff (txt : Text) (s : Line) :
    (txt.foldl putViewChar s).InBounds ↔ s.InBounds ∧ s.len + extent txt ≤ SIZE := by
  induction txt generalizing s with
  | nil =>
    refine ⟨fun h => ⟨h, h.len_le⟩, And.left⟩
  | cons c txt ih =>
    rw [List.foldl_cons, ih, putViewChar_inBounds_iff, putViewChar_len, extent_cons, and_assoc]
    refine and_congr_right fun _ => ?_
    omega

/-- What a call needs: where a line that is enabled gets a view, the characters that it takes have
room with their line breaks spelled out. -/
def HasRoom (s : Line) : Argument → Prop
  | .view str => s.enabled = true → s.len + extent (str.take (SIZE - s.len)) ≤ SIZE
  | _ => True

/-- **One call** keeps a line in its buffer exactly where it has room. -/
theorem put_inBounds_iff {arg : Argument} (hs : s.InBounds) (h : s.put arg = some s') :
    s'.InBounds ↔ s.HasRoom arg := by
  cases arg with
  | view str =>
    cases h
    unfold HasRoom putView
    split
    · rename_i henabled
      have htake : str.take (if str.length ≤ s.available then str.length else s.available) =
          str.take (SIZE - s.len) := by
        rw [available_of_le hs.len_le]
        split
        · rename_i hle
          rw [List.take_length, List.take_of_length_le hle]
        · rfl
      simp only [htake]
      rw [foldl_putViewChar_inBounds_iff]
      exact ⟨fun h _ => h.2, fun h => ⟨hs, h henabled⟩⟩
    · rename_i henabled
      exact iff_of_true hs fun h => absurd h henabled
  | buffer b =>
    cases h
    exact iff_of_true (putBuffer_inBounds hs b) trivial
  | enum e => exact iff_of_true (putEnum_inBounds hs h) trivial
  | cString str =>
    cases h
    exact iff_of_true (putCString_inBounds hs str) trivial
  | char c =>
    cases h
    exact iff_of_true (putChar_inBounds hs c) trivial
  | bool v =>
    cases h
    exact iff_of_true (putCString_inBounds hs _) trivial
  | int v =>
    cases h
    exact iff_of_true (putInt_inBounds hs v) trivial

/-- **A log line stays in its buffer, exactly**: after each call of a run, if and only if every
view on the way has room for its line breaks. -/
theorem inBounds_iff {enabled : Bool} {args : List Argument} {t : Line}
    (hrun : run put args (init enabled) = some t) :
    (∀ pre, pre <+: args → ∀ u, run put pre (init enabled) = some u → u.InBounds) ↔
      Guarded put HasRoom args (init enabled) :=
  forall_iff_guarded (R := fun _ => True) (fun _ _ _ _ _ => trivial)
    (fun _ _ _ _ hs h => put_inBounds_iff hs h) args _ t trivial (init_inBounds enabled) hrun

/-- A message with a line break and a number. -/
theorem inBounds_iff_example : ∃ t,
    run put [.cString (some (text "TX: ")), .view (text "AT\r\n"), .int 4] (init true) = some t ∧
      ((∀ pre, pre <+: [Argument.cString (some (text "TX: ")), .view (text "AT\r\n"), .int 4] →
          ∀ u, run put pre (init true) = some u → u.InBounds) ↔
        Guarded put HasRoom [.cString (some (text "TX: ")), .view (text "AT\r\n"), .int 4]
          (init true)) :=
  ⟨_, rfl, inBounds_iff rfl⟩

/-- 64 CRs fill the buffer, and the NUL behind the last of them is written behind it. -/
theorem line_breaks_leave_buffer : ∃ t,
    run put [.view (List.replicate 64 13)] (init true) = some t ∧ ¬ t.InBounds := by
  refine ⟨(init true).putView (List.replicate 64 13), rfl, fun h => ?_⟩
  have hput : (init true).put (.view (List.replicate 64 13)) =
      some ((init true).putView (List.replicate 64 13)) := rfl
  have hroom := (put_inBounds_iff (init_inBounds true) hput).1 h
  have hextent : extent ((List.replicate 64 13).take (SIZE - 0)) = 257 := by decide
  have hle : 0 + extent ((List.replicate 64 13).take (SIZE - 0)) ≤ SIZE := hroom rfl
  rw [hextent] at hle
  exact absurd hle (by decide)

end Line

end Logger

end ATLink
