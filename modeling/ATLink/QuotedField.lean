import ATLink.ObjectReuse

/-!
# Text streamed into a quoted field

Reference model of `FixedBufStream` and of `QuotedField<N>` over it, of `core/Types.h`.

* `FixedBufStream` — `buf`, `cap` and `len`, with the overloads of `operator<<`.
* `StreamOp` — an operation on the stream of a field.
* `reference` — what the operations are for: a text that never grows over its room.
* `FixedBufStream.Shows` — the buffer is a text, a NUL and stale bytes.

Principal result: `QuotedField.streams` — after any operations the stream has room for the NUL
that stands at its end, and `view()` is the reference text.
-/

namespace ATLink

open CharConv

/-- `buf` points to as many characters as it has here. -/
structure FixedBufStream where
  buf : Text
  cap : Nat
  len : Nat

/-- An operation on `QuotedField<N>::stream()`.  A C string is the characters in front of its NUL,
and may be `nullptr`. -/
inductive StreamOp where
  | clear
  | cString (str : Option Text)
  | char (c : { c : Byte // c ≠ 0 })
  | bool (v : Bool)
  | int (v : Int)

namespace FixedBufStream

/-- The constructor over the characters `data`. -/
def init (data : Text) : FixedBufStream := ⟨data, data.length, 0⟩

def clear (s : FixedBufStream) : FixedBufStream :=
  { s with buf := if 0 < s.cap then s.buf.set 0 0 else s.buf, len := 0 }

/-- `while (*s && len < cap - 1)`. -/
def putChars (s : FixedBufStream) : Text → FixedBufStream
  | [] => s
  | c :: str =>
    if c ≠ 0 ∧ s.len < s.cap - 1 then
      putChars { s with buf := s.buf.set s.len c, len := s.len + 1 } str
    else s

/-- `operator<<(const char *s)`. -/
def putCString (s : FixedBufStream) (str : Option Text) : FixedBufStream :=
  match str with
  | none => s
  | some str =>
    let s := s.putChars str
    { s with buf := s.buf.set (min s.len (s.cap - 1)) 0 }

/-- `operator<<(char c)`. -/
def putChar (s : FixedBufStream) (c : Byte) : FixedBufStream :=
  if s.len < s.cap - 1 then
    { s with buf := (s.buf.set s.len c).set (s.len + 1) 0, len := s.len + 1 }
  else s

/-- `operator<<(bool v)`. -/
def putBool (s : FixedBufStream) (v : Bool) : FixedBufStream :=
  s.putCString (some (if v then text "true" else text "false"))

/-- `operator<<(T v)` for integers. -/
def putInt (s : FixedBufStream) (v : Int) : FixedBufStream :=
  if s.cap - 1 ≤ s.len then s
  else
    match toCharsInto (s.cap - 1 - s.len) v with
    | some txt =>
      let buf := s.buf.take s.len ++ txt ++ s.buf.drop (s.len + txt.length)
      { s with buf := buf.set (s.len + txt.length) 0, len := s.len + txt.length }
    | none => s

/-- The operation that is called. -/
def apply (s : FixedBufStream) : StreamOp → FixedBufStream
  | .clear => s.clear
  | .cString str => s.putCString str
  | .char c => s.putChar c
  | .bool v => s.putBool v
  | .int v => s.putInt v

end FixedBufStream

/-- The stream of a new `QuotedField<N>`; its `chars` are the `buf` of the stream. -/
def QuotedField.init (N : Nat) : FixedBufStream := (FixedBufStream.init (List.replicate N 0)).clear

/-- `QuotedField::view`: up to `strnlen(chars.data(), chars.size())`. -/
def QuotedField.view (s : FixedBufStream) : Text := cString s.buf

/-! ## The reference text -/

/-- A string is cut to the room that is left. -/
def appendCut (room : Nat) (shown str : Text) : Text := shown ++ str.take (room - shown.length)

/-- An operation on a text of at most `room` characters. -/
def reference (room : Nat) (shown : Text) : StreamOp → Text
  | .clear => []
  | .cString none => shown
  | .cString (some str) => appendCut room shown (cString str)
  | .char c => if shown.length < room then shown ++ [c.val] else shown
  | .bool v => appendCut room shown (if v then text "true" else text "false")
  | .int v => if (shown ++ toChars v).length ≤ room then shown ++ toChars v else shown

/-! ## What the buffer shows -/

namespace FixedBufStream

/-- The buffer is the text, a NUL and stale bytes, and `len` is the length of the text. -/
structure Shows (s : FixedBufStream) (shown : Text) : Prop where
  len : s.len = shown.length
  buf : ∃ stale, s.buf = shown ++ 0 :: stale
  cap : s.buf.length = s.cap
  noNul : (0 : Byte) ∉ shown

theorem set_length (a : Text) (x c : Byte) (b : Text) : (a ++ x :: b).set a.length c = a ++ c :: b := by
  rw [List.set_append_right _ _ (Nat.le_refl _), Nat.sub_self, List.set_cons_zero]

theorem cString_cons (c : Byte) (str : Text) :
    cString (c :: str) = if c = 0 then [] else c :: cString str := by
  unfold cString
  by_cases h : c = 0 <;> simp [h]

variable {s : FixedBufStream} {shown : Text}

theorem Shows.length_lt (h : s.Shows shown) : shown.length < s.cap := by
  obtain ⟨stale, hbuf⟩ := h.buf
  have hcap := h.cap
  rw [hbuf, List.length_append, List.length_cons] at hcap
  omega

theorem Shows.cString_buf (h : s.Shows shown) : cString s.buf = shown := by
  obtain ⟨stale, hbuf⟩ := h.buf
  rw [hbuf, cString_append_of_not_mem h.noNul, cString_cons, if_pos rfl, List.append_nil]

/-- The loop over a C string copies what there is room for, over whatever stands there. -/
theorem putChars_eq : ∀ (str : Text) {s : FixedBufStream} {shown behind : Text},
    s.buf = shown ++ behind → s.buf.length = s.cap → s.len = shown.length → ∃ cut,
      cut = (cString str).take (s.cap - 1 - shown.length) ∧
        s.putChars str = ⟨shown ++ cut ++ behind.drop cut.length, s.cap, (shown ++ cut).length⟩
  | [], s, shown, behind, hbuf, _, hlen => by
    refine ⟨[], List.take_nil.symm, ?_⟩
    rw [putChars, List.append_nil, List.length_nil, List.drop_zero, ← hbuf, ← hlen]
  | c :: str, s, shown, behind, hbuf, hcap, hlen => by
    rw [putChars]
    by_cases hroom : c ≠ 0 ∧ s.len < s.cap - 1
    · obtain ⟨hc, hlt⟩ := hroom
      rw [if_pos ⟨hc, hlt⟩]
      cases behind with
      | nil =>
        have hfull := congrArg List.length hbuf
        rw [List.append_nil] at hfull
        omega
      | cons x behind =>
        have hset : s.buf.set s.len c = (shown ++ [c]) ++ behind := by
          rw [hbuf, hlen, set_length, List.append_assoc, List.singleton_append]
        obtain ⟨cut, hcut, hput⟩ := putChars_eq str
          (s := { s with buf := s.buf.set s.len c, len := s.len + 1 }) hset
          (by rw [List.length_set]; exact hcap)
          (by rw [List.length_append, List.length_singleton, hlen])
        refine ⟨c :: cut, ?_, ?_⟩
        · have hroom : s.cap - 1 - shown.length = s.cap - 1 - (shown ++ [c]).length + 1 := by
            rw [List.length_append, List.length_singleton]
            omega
          rw [cString_cons, if_neg hc, hroom, List.take_succ_cons, hcut]
        · rw [hput]
          simp only [List.append_assoc, List.cons_append, List.nil_append, List.length_cons,
            List.drop_succ_cons]
    · rw [if_neg hroom]
      refine ⟨[], ?_, ?_⟩
      · rw [cString_cons]
        by_cases hc : c = 0
        · rw [if_pos hc, List.take_nil]
        · have hge : ¬ s.len < s.cap - 1 := fun hlt => hroom ⟨hc, hlt⟩
          have hfull : s.cap - 1 - shown.length = 0 := by omega
          rw [hfull, List.take_zero]
      · rw [List.append_nil, List.length_nil, List.drop_zero, ← hbuf, ← hlen]

theorem cString_no_nul (str : Text) : (0 : Byte) ∉ cString str := by
  intro hmem
  have hne := List.mem_takeWhile_imp hmem
  exact absurd rfl (of_decide_eq_true hne)

theorem toChars_no_nul (v : Int) : (0 : Byte) ∉ toChars v := by
  intro hmem
  rcases (isNumeral_toChars v).chars 0 hmem with hdigit | hminus
  · exact absurd hdigit (by decide)
  · exact absurd hminus (by decide)

/-- **Putting a text behind what is shown**, over the NUL there, and a NUL behind it. -/
theorem Shows.append {more stale : Text} (h : s.Shows shown) (hbuf : s.buf = shown ++ 0 :: stale)
    (hmore : (0 : Byte) ∉ more) (hfit : more.length ≤ stale.length) :
    (⟨(shown ++ more ++ ((0 :: stale).drop more.length)).set (shown ++ more).length 0, s.cap,
        (shown ++ more).length⟩ : FixedBufStream).Shows (shown ++ more) := by
  have hlt : more.length < (0 :: stale).length := Nat.lt_succ_of_le hfit
  rw [List.drop_eq_getElem_cons hlt, set_length, List.drop_succ_cons]
  refine ⟨rfl, ⟨_, rfl⟩, ?_, ?_⟩
  · rw [← h.cap, hbuf]
    simp only [List.length_append, List.length_cons, List.length_drop]
    omega
  · rw [List.mem_append]
    exact fun hmem => hmem.elim h.noNul hmore

/-- The stale bytes are the room that is left. -/
theorem Shows.stale_length {stale : Text} (h : s.Shows shown) (hbuf : s.buf = shown ++ 0 :: stale) :
    stale.length = s.cap - 1 - shown.length := by
  have hcap := h.cap
  rw [hbuf, List.length_append, List.length_cons] at hcap
  omega

theorem Shows.clear (h : s.Shows shown) : s.clear.Shows [] := by
  have hlt := h.length_lt
  obtain ⟨stale, hbuf⟩ := h.buf
  unfold FixedBufStream.clear
  rw [if_pos (Nat.zero_lt_of_lt hlt), hbuf]
  refine ⟨rfl, ⟨(shown ++ 0 :: stale).tail, ?_⟩, ?_, List.not_mem_nil⟩
  · cases shown <;> rfl
  · rw [List.length_set, ← hbuf, h.cap]

theorem Shows.putCString (h : s.Shows shown) (str : Text) :
    (s.putCString (some str)).Shows (appendCut (s.cap - 1) shown (cString str)) := by
  have hlt := h.length_lt
  obtain ⟨stale, hbuf⟩ := h.buf
  obtain ⟨cut, hcut, hput⟩ := putChars_eq str hbuf h.cap h.len
  have hfit : cut.length ≤ s.cap - 1 - shown.length := by
    rw [hcut]
    exact List.length_take_le _ _
  have hmin : min (shown ++ cut).length (s.cap - 1) = (shown ++ cut).length := by
    rw [List.length_append]
    omega
  have hno : (0 : Byte) ∉ cut := by
    rw [hcut]
    exact fun hmem => cString_no_nul str (List.mem_of_mem_take hmem)
  have happend := h.append hbuf hno (by rw [h.stale_length hbuf]; exact hfit)
  unfold FixedBufStream.putCString
  simp only [hput, hmin]
  rw [appendCut, ← hcut]
  exact happend

theorem Shows.putChar (h : s.Shows shown) {c : Byte} (hc : c ≠ 0) :
    (s.putChar c).Shows (if shown.length < s.cap - 1 then shown ++ [c] else shown) := by
  unfold FixedBufStream.putChar
  rw [h.len]
  by_cases hroom : shown.length < s.cap - 1
  · rw [if_pos hroom, if_pos hroom]
    obtain ⟨stale, hbuf⟩ := h.buf
    have hset : s.buf.set shown.length c = shown ++ [c] ++ (0 :: stale).drop 1 := by
      rw [hbuf, set_length, List.append_assoc]
      rfl
    have hno : (0 : Byte) ∉ [c] := fun hmem => hc (List.mem_singleton.1 hmem).symm
    have happend := h.append hbuf hno (by rw [h.stale_length hbuf, List.length_singleton]; omega)
    rw [List.length_append, List.length_singleton] at happend
    rw [hset]
    exact happend
  · rw [if_neg hroom, if_neg hroom]
    exact h

theorem Shows.putInt (h : s.Shows shown) (v : Int) : (s.putInt v).Shows
    (if (shown ++ toChars v).length ≤ s.cap - 1 then shown ++ toChars v else shown) := by
  have hpos : 0 < (toChars v).length := List.length_pos_iff.2 (toChars_ne_nil v)
  unfold FixedBufStream.putInt
  rw [h.len, List.length_append]
  by_cases hfull : s.cap - 1 ≤ shown.length
  · rw [if_pos hfull, if_neg (by omega)]
    exact h
  · rw [if_neg hfull]
    by_cases hfit : (toChars v).length ≤ s.cap - 1 - shown.length
    · rw [toCharsInto_of_le hfit, if_pos (by omega)]
      obtain ⟨stale, hbuf⟩ := h.buf
      have happend := h.append hbuf (toChars_no_nul v) (by rw [h.stale_length hbuf]; exact hfit)
      rw [List.length_append] at happend
      have hsplit : s.buf.take shown.length ++ toChars v ++
          s.buf.drop (shown.length + (toChars v).length) =
          shown ++ toChars v ++ (0 :: stale).drop (toChars v).length := by
        rw [hbuf, List.take_left, ← List.drop_drop, List.drop_left]
      simp only [hsplit]
      exact happend
    · rw [toCharsInto_of_lt (by omega), if_neg (by omega)]
      exact h

/-- **One operation** on the stream is the reference operation on what it shows. -/
theorem Shows.apply (h : s.Shows shown) (op : StreamOp) :
    (s.apply op).Shows (reference (s.cap - 1) shown op) := by
  cases op with
  | clear => exact h.clear
  | cString str =>
    cases str with
    | none => exact h
    | some str => exact h.putCString str
  | char c => exact h.putChar c.property
  | bool v =>
    have hbool := h.putCString (if v then text "true" else text "false")
    have hplain : cString (if v then text "true" else text "false") =
        if v then text "true" else text "false" := by
      cases v <;> decide
    rw [hplain] at hbool
    exact hbool
  | int v => exact h.putInt v

theorem putChars_cap : ∀ (str : Text) (s : FixedBufStream), (s.putChars str).cap = s.cap
  | [], _ => rfl
  | c :: str, s => by
    unfold putChars
    split
    · exact putChars_cap str _
    · rfl

theorem putCString_cap (s : FixedBufStream) (str : Option Text) : (s.putCString str).cap = s.cap := by
  cases str with
  | none => rfl
  | some str => exact putChars_cap str s

theorem apply_cap (s : FixedBufStream) (op : StreamOp) : (s.apply op).cap = s.cap := by
  cases op with
  | clear => rfl
  | cString str => exact putCString_cap s str
  | char c =>
    show (s.putChar c).cap = s.cap
    unfold putChar
    split <;> rfl
  | bool v => exact putCString_cap s _
  | int v =>
    show (s.putInt v).cap = s.cap
    unfold putInt
    split
    · rfl
    · split <;> rfl

/-- **Any operations** do what the reference operations do. -/
theorem Shows.foldl (h : s.Shows shown) (ops : List StreamOp) :
    (ops.foldl FixedBufStream.apply s).Shows (ops.foldl (reference (s.cap - 1)) shown) ∧
      (ops.foldl FixedBufStream.apply s).cap = s.cap := by
  induction ops generalizing s shown with
  | nil => exact ⟨h, rfl⟩
  | cons op ops ih =>
    have happly := ih (h.apply op)
    rw [apply_cap] at happly
    exact happly

end FixedBufStream

/-! ## Streaming into a field -/

namespace QuotedField

theorem init_shows {N : Nat} (hN : 1 ≤ N) : (init N).Shows [] := by
  obtain ⟨n, rfl⟩ := Nat.exists_eq_add_of_le' hN
  have hcap : (init (n + 1)).cap = n + 1 := List.length_replicate
  have hbuf : (init (n + 1)).buf = 0 :: List.replicate n 0 := by
    unfold init FixedBufStream.init FixedBufStream.clear
    rw [List.length_replicate, if_pos (Nat.succ_pos n), List.replicate_succ, List.set_cons_zero]
  refine ⟨rfl, ⟨List.replicate n 0, hbuf⟩, ?_, List.not_mem_nil⟩
  rw [hcap, hbuf, List.length_cons, List.length_replicate]

/-- **Streaming is bounded concatenation**: after any operations on the stream of a new field its
size leaves room for a NUL, which stands there, and `view()` is the reference text. -/
theorem streams {N : Nat} (hN : 1 ≤ N) (ops : List StreamOp) :
    (ops.foldl FixedBufStream.apply (init N)).len ≤ N - 1 ∧
      (ops.foldl FixedBufStream.apply (init N)).buf[(ops.foldl FixedBufStream.apply (init N)).len]? =
        some 0 ∧
      view (ops.foldl FixedBufStream.apply (init N)) = ops.foldl (reference (N - 1)) [] := by
  have hcap : (init N).cap = N := List.length_replicate
  obtain ⟨h, hkeep⟩ := (init_shows hN).foldl ops
  rw [hcap] at h hkeep
  have hlt := h.length_lt
  obtain ⟨stale, hbuf⟩ := h.buf
  refine ⟨?_, ?_, h.cString_buf⟩
  · rw [h.len]
    omega
  · rw [h.len, hbuf, List.getElem?_append_right (Nat.le_refl _), Nat.sub_self]
    rfl

/-- A text is cut, and a number is streamed over it. -/
theorem streams_example :
    ([StreamOp.cString (some (text "abcdef")), .clear, .int (-3)].foldl FixedBufStream.apply
        (init 4)).len ≤ 4 - 1 ∧
      ([StreamOp.cString (some (text "abcdef")), .clear, .int (-3)].foldl FixedBufStream.apply
          (init 4)).buf[([StreamOp.cString (some (text "abcdef")), .clear, .int (-3)].foldl
            FixedBufStream.apply (init 4)).len]? = some 0 ∧
      view ([StreamOp.cString (some (text "abcdef")), .clear, .int (-3)].foldl FixedBufStream.apply
          (init 4)) =
        [StreamOp.cString (some (text "abcdef")), .clear, .int (-3)].foldl (reference (4 - 1)) [] :=
  streams (by decide) _

end QuotedField

end ATLink
