import ATLink.EnumLookup
import ATLink.Grammar
import ATLink.Send
import ATLink.Visits

/-!
# The `+CPIN` commands

Reference model of `protocols/standard/Cpin.h`.

* `ReducedEnum` — a table in which strings start other ones, with the strings that its search can
  end at.
* `CpinReadResponse`, `CpinWrite` — the response to the query and the command that enters a PIN.

Principal results: `ReducedEnum.parse_eq` — such a table reads every text as its reduced table
does; `CpinReadResponse.takes_reply_iff` — the replies that are accepted, with five of the seven
codes; `CpinWrite.enters_iff` — the PINs that can be entered.
-/

namespace ATLink

open StringView CharConv LowerBound Deserializer

/-! ## Tables in which strings start other ones -/

/-- A custom-string enum some strings of which start others.  Every string starts with one of the
reduced table, and the search for such a one inspects no string that starts it or that it starts. -/
structure ReducedEnum where
  converter : EnumCustomStringConverter Int
  distinct : (converter.map.map (·.2)).Nodup
  reduced : CustomEnum
  records : ∀ r ∈ reduced.converter.map, r ∈ converter.map
  starts : ∀ k ∈ converter.keys, ∃ k' ∈ reduced.converter.keys, k' <+: k
  apart : ∀ j m : Fin converter.keys.length, converter.keys[j] ∈ reduced.converter.keys →
    m.val ∈ probes 0 converter.keys.length j → m ≠ j →
    ¬ converter.keys[m] <+: converter.keys[j] ∧ ¬ converter.keys[j] <+: converter.keys[m]

namespace ReducedEnum

open EnumCustomStringConverter

variable (e : ReducedEnum)

/-- A string of the reduced table that starts the input is the one the search ends at. -/
theorem parse_of_starts {k input : Text} {v value : Int} (hmem : (k, v) ∈ e.reduced.converter.map)
    (hk : k <+: input) : e.converter.parse value input = (k.length, v) := by
  have hrecord : (k, v) ∈ e.converter.map := e.records _ hmem
  obtain ⟨j, hj, rfl⟩ := List.getElem_of_mem (mem_keys.2 ⟨v, hrecord⟩)
  have hend : lowerBound (truncLt input) e.converter.keys = j := by
    -- what misleads the search starts the string, or the string starts it
    rw [lowerBound_eq_index_iff hj hk]
    rintro m hm hprobe ⟨hne, hmisleads⟩
    obtain ⟨hstart, hstarts⟩ := e.apart ⟨j, hj⟩ ⟨m, hm⟩ (mem_keys.2 ⟨v, hmem⟩) hprobe
      fun h => hne (Fin.mk.inj h)
    exact hmisleads.elim hstart fun h => hstarts h.1
  obtain ⟨w, hw, hparse⟩ := parse_at_index e.distinct hj (e.reduced.keys _ _ hmem).1 hk hend
  rw [hparse, value_unique hw hrecord]

/-- **Every text is read as by the reduced table.** -/
theorem parse_eq (value : Int) (input : Text) :
    e.converter.parse value input = e.reduced.converter.parse value input := by
  by_cases hstart : ∃ k ∈ e.reduced.converter.keys, k <+: input
  · obtain ⟨k, hkey, hk⟩ := hstart
    obtain ⟨v, hmem⟩ := mem_keys.1 hkey
    have hfound : e.reduced.converter.lookup input = some v :=
      lookup_complete e.reduced.prefixFree hmem (e.reduced.keys _ _ hmem).1 hk
    rw [e.parse_of_starts hmem hk,
      parse_of_some hfound (lookupString_of_mem e.reduced.distinct hmem)]
  · have hnone : ∀ k ∈ e.reduced.converter.keys, ¬ k <+: input :=
      fun k hkey hk => hstart ⟨k, hkey, hk⟩
    rw [parse_of_no_start hnone]
    -- a string of the whole table would bring one of the reduced table with it
    apply parse_of_no_start
    intro k hkey hk
    obtain ⟨k', hkey', hk'⟩ := e.starts k hkey
    exact hnone k' hkey' (hk'.trans hk)

/-- A field over the reduced table, with the whole table put back. -/
def restore : ResponseField → ResponseField
  | .enum f => .enum ⟨.custom e.converter, f.value⟩
  | f => f

theorem visitField_eq (old : Int) (input : Text) (length : Nat) :
    visitField input (.enum ⟨.custom e.converter, old⟩) length =
      (visitField input ((FieldKind.custom e.reduced).field old) length).map fun r =>
        (r.1, e.restore r.2.1, r.2.2) := by
  simp only [FieldKind.field, visitField, visitEnum, Enum.parse, e.parse_eq, Option.bind_eq_bind,
    Option.map_map]
  cases skipWhitespaces input length with
  | none => rfl
  | some length =>
    cases hsubstr : substr input length with
    | none => simp only [Option.bind_some, hsubstr, Option.bind_none, Option.map_none]
    | some rest =>
      simp only [Option.bind_some, hsubstr, restore]
      rfl

/-- A packet with one such field is read as over the reduced table. -/
theorem accept_eq (tag : Text) (old : Int) (input : Text) (length : Nat) :
    APacket.accept (visitor input) tag [.enum ⟨.custom e.converter, old⟩] length =
      (APacket.accept (visitor input) tag [(FieldKind.custom e.reduced).field old] length).map fun r =>
        (r.1, r.2.1.map e.restore, r.2.2) := by
  unfold APacket.accept acceptWithTerm
  generalize (if 0 < tag.length then (visitor input).visitSequence tag length
    else some (true, length)) = start
  rcases start with _ | ⟨_ | _, length⟩
  · rfl
  · rfl
  · simp only [visitWithCommas, visitor_visit, e.visitField_eq old input length]
    rcases visitField input ((FieldKind.custom e.reduced).field old) length with _ | ⟨_ | _, f, n⟩
    · rfl
    · rfl
    · simp only [Option.map_some, visitor_visitSequence, Option.map_map]
      rfl

end ReducedEnum

/-! ## The query -/

namespace CpinReadResponse

/-- The underlying values. -/
def Code.toInt : Code → Int
  | .ready => 0
  | .simPin => 1
  | .simPuk => 2
  | .phSimPin => 3
  | .phSimPuk => 4
  | .phSimPin2 => 5
  | .phSimPuk2 => 6

/-- `map`, as the visitors see it. -/
def converter : EnumCustomStringConverter Int where
  map := CpinReadResponse.map.map.map fun r => (r.1, r.2.toInt)
  sorted := by decide +kernel

/-- The records that the search can end at. -/
def reached : List (Text × Code) :=
  [(text "PH_SIM_PIN", .phSimPin), (text "PH_SIM_PUK", .phSimPuk), (text "READY", .ready),
    (text "SIM_PIN", .simPin), (text "SIM_PUK", .simPuk)]

def reducedEnum : ReducedEnum where
  converter := converter
  distinct := by decide +kernel
  reduced := {
    converter := ⟨reached.map fun r => (r.1, r.2.toInt), by decide +kernel⟩
    distinct := by decide +kernel
    prefixFree := by unfold PrefixFree; decide +kernel
    keys := by
      have hkeys : ∀ r ∈ reached.map fun r => (r.1, r.2.toInt),
          r.1 ≠ [] ∧ ∀ c ∈ r.1.head?, c ∉ blanks := by decide +kernel
      exact fun k v h => hkeys (k, v) h }
  records := by decide +kernel
  starts := by decide +kernel
  apart := by decide +kernel

/-- `B +CPIN: B k B CRLF` for a string `k` that the search can end at. -/
def Reads (v : Code) (p : Text) : Prop :=
  ∃ b b' b'' k, Blanks b ∧ Blanks b' ∧ Blanks b'' ∧ (k, v) ∈ reached ∧
    p = b ++ text "+CPIN: " ++ (b' ++ k) ++ (b'' ++ Constants.CrLf)

end CpinReadResponse

/-- `CpinReadResponse` with a value of its `code`. -/
def CpinReadResponse (code : CpinReadResponse.Code) : ResponseObject :=
  .packet (text "+CPIN: ") [.enum ⟨.custom CpinReadResponse.converter, code.toInt⟩]

namespace CpinReadResponse

/-- The texts that are read are the packets over the reduced table. -/
theorem packet_iff {i : Int} {p : Text} :
    Packet (text "+CPIN: ") [.custom reducedEnum.reduced] [i] p ↔ ∃ v, Reads v p ∧ v.toInt = i := by
  constructor
  · rintro ⟨b, w, b'', hb, hw, hb'', rfl⟩
    cases hw with
    | @single _ _ b' k hb' hk =>
      obtain ⟨⟨k', v⟩, hmem, hrecord⟩ := List.mem_map.1 hk
      cases hrecord
      exact ⟨v, ⟨b, b', b'', k', hb, hb', hb'', hmem, rfl⟩, rfl⟩
  · rintro ⟨v, ⟨b, b', b'', k, hb, hb', hb'', hmem, rfl⟩, rfl⟩
    exact ⟨b, b' ++ k, b'', hb, .single hb' (List.mem_map.2 ⟨(k, v), hmem, rfl⟩), hb'', rfl⟩

/-- **The replies that are accepted**: whatever the code was before, a fresh deserializer takes a
text of the query's grammar and nothing else, with the code spelled there.  Neither `PhSimPin2` nor
`PhSimPuk2` is among these, and no CRLF is skipped in front. -/
theorem takes_reply_iff (old : Code) (input : Text) (o : ResponseObject) (n : Nat) :
    (CpinReadResponse old).accept input 0 = some (true, o, n) ↔
      ∃ v p, Reads v p ∧ p <+: input ∧ n = p.length ∧ o = CpinReadResponse v := by
  have htag : Literal (text "+CPIN: ") := ⟨by decide, by decide +kernel⟩
  have heq := reducedEnum.accept_eq (text "+CPIN: ") old.toInt input 0
  constructor
  · intro h
    obtain ⟨⟨ok, fs, m⟩, haccept, hr⟩ := Option.map_eq_some_iff.1 h
    cases hr
    obtain ⟨ok, fs', w, r, rfl, hsound, hok⟩ :=
      accept_sound htag [(.custom reducedEnum.reduced, old.toInt)] [] input
    have hboth := haccept.symm.trans (heq.trans (congrArg (Option.map _) hsound))
    cases hboth
    obtain ⟨vs, hpacket, rfl⟩ := hok rfl
    obtain ⟨i, rfl⟩ : ∃ i, vs = [i] := by
      obtain ⟨_, _, _, _, hw, _⟩ := hpacket
      cases hw with
      | single => exact ⟨_, rfl⟩
    obtain ⟨v, hreads, rfl⟩ := packet_iff.1 hpacket
    exact ⟨v, w, hreads, List.prefix_append _ _, rfl, rfl⟩
  · rintro ⟨v, p, hreads, ⟨r, rfl⟩, rfl, rfl⟩
    have hpacket : Packet _ (kinds [(.custom reducedEnum.reduced, old.toInt)]) _ p :=
      packet_iff.2 ⟨v, hreads, rfl⟩
    have haccept := accept_packet htag hpacket [] r
    exact congrArg (Option.map _) (heq.trans (congrArg (Option.map _) haccept))

end CpinReadResponse

/-! ## Entering a PIN -/

/-- `CpinWrite`, with its `pin`. -/
def CpinWrite (pin : Int) : PacketCommand := ⟨text "+CPIN=", Constants.CrLf, [.int pin]⟩

namespace CpinWrite

theorem encoding_eq (pin : Int) :
    (CpinWrite pin).encoding = text "+CPIN=" ++ toChars pin ++ Constants.CrLf := by
  simp [PacketCommand.encoding, CpinWrite, Serializer.encodePacket, Serializer.encodeFields,
    List.intercalate, Serializer.encodeField]

theorem encoding_length_lt {pin : Int} (hlo : INT_MIN ≤ pin) (hhi : pin ≤ INT_MAX) :
    (CpinWrite pin).encoding.length < storageSize := by
  have hdigits : (natDigits pin.natAbs).length ≤ 10 := by
    apply natDigits_length_le (by decide)
    unfold INT_MIN at hlo
    unfold INT_MAX at hhi
    omega
  have hchars : (toChars pin).length ≤ 11 := by
    unfold toChars
    split
    · rw [List.length_cons]
      omega
    · omega
  have htag : (text "+CPIN=").length = 6 := by decide
  have hterm : Constants.CrLf.length = 2 := rfl
  rw [encoding_eq, List.length_append, List.length_append]
  unfold storageSize
  omega

/-- Every `int` is written whole, in one piece. -/
theorem send_writes {pin : Int} (hlo : INT_MIN ≤ pin) (hhi : pin ≤ INT_MAX) {txbuf : Text}
    (hsize : txbuf.length = storageSize) (reported : Nat) : ∃ success txbuf',
      send (CpinWrite pin).accept txbuf reported =
        some ⟨success, txbuf', [text "+CPIN=" ++ toChars pin ++ Constants.CrLf]⟩ := by
  have hstrings : ∀ f ∈ (CpinWrite pin).fields, Serializer.HasString f := by
    intro f hf
    rw [List.mem_singleton.1 hf]
    trivial
  obtain ⟨hfits, -⟩ := Serializer.acceptWithTerm_state (text "+CPIN=") Constants.CrLf
    (CpinWrite pin).fields [] storageSize (by decide) hstrings
  have haccept : (CpinWrite pin).accept (Serializer.init txbuf) = some (true,
      Serializer.state (CpinWrite pin).encoding (storageSize - (CpinWrite pin).encoding.length)) := by
    rw [Serializer.init_eq, hsize]
    exact congrArg (Option.map _) (hfits (encoding_length_lt hlo hhi))
  have hsend : ∃ success txbuf', send (CpinWrite pin).accept txbuf reported =
      some ⟨success, txbuf', [(CpinWrite pin).encoding]⟩ := by
    unfold send
    rw [haccept]
    simp only [Serializer.state_output]
    exact ⟨_, _, rfl⟩
  rwa [encoding_eq] at hsend

/-- **The PINs that can be entered**: some `int` makes the command write this text of digits behind
its tag exactly when the text is a single zero or starts with another digit, and its value is in
range; no longer PIN with a leading zero is ever entered. -/
theorem enters_iff {p txbuf : Text} (hp : Digits p) (hsize : txbuf.length = storageSize)
    (reported : Nat) :
    (∃ pin success txbuf', INT_MIN ≤ pin ∧ pin ≤ INT_MAX ∧ send (CpinWrite pin).accept txbuf reported =
        some ⟨success, txbuf', [text "+CPIN=" ++ p ++ Constants.CrLf]⟩) ↔
      (p = text "0" ∨ p.head? ≠ some 48) ∧ (ofDigits p : Int) ≤ INT_MAX := by
  have hprinted : toChars (ofDigits p) = natDigits (ofDigits p) := by
    rw [toChars, if_neg (by omega), Int.natAbs_natCast]
  constructor
  · rintro ⟨pin, success, txbuf', hlo, hhi, hsend⟩
    obtain ⟨_, _, hwritten⟩ := send_writes hlo hhi hsize reported
    have hsame := hsend.symm.trans hwritten
    simp only [Option.some.injEq, Sent.mk.injEq, List.cons.injEq, and_true] at hsame
    have hpin : toChars pin = p := (List.append_cancel_left (List.append_cancel_right hsame.2.2)).symm
    have hvalue : pin = ofDigits p := (isNumeral_toChars pin).unique (by
      rw [hpin]
      exact Or.inl ⟨hp, rfl⟩)
    subst hvalue
    exact ⟨(natDigits_ofDigits_iff hp).1 (hprinted.symm.trans hpin), hhi⟩
  · rintro ⟨hzero, hhi⟩
    have hlo : INT_MIN ≤ (ofDigits p : Int) := by
      unfold INT_MIN
      omega
    obtain ⟨success, txbuf', hwritten⟩ := send_writes hlo hhi hsize reported
    rw [hprinted, (natDigits_ofDigits_iff hp).2 hzero] at hwritten
    exact ⟨ofDigits p, success, txbuf', hlo, hhi, hwritten⟩

/-- The PIN 1234. -/
theorem enters_iff_1234 :
    (∃ pin success txbuf', INT_MIN ≤ pin ∧ pin ≤ INT_MAX ∧
        send (CpinWrite pin).accept (List.replicate storageSize 0) 12 =
          some ⟨success, txbuf', [text "+CPIN=" ++ text "1234" ++ Constants.CrLf]⟩) ↔
      (text "1234" = text "0" ∨ (text "1234").head? ≠ some 48) ∧
        (ofDigits (text "1234") : Int) ≤ INT_MAX :=
  enters_iff ⟨by decide, by decide +kernel⟩ (List.length_replicate ..) 12

end CpinWrite

end ATLink
