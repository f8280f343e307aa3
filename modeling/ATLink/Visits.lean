import ATLink.Packet

/-!
# The visits of a response

What `accept` of a response does with the deserializer, as a list of visits: the templates of
`core/Packet.h` and `core/Response.h` fix it by the tag and the number of arguments.

* `Visit` — a text whose verdict is ignored, a text that has to be there, or the next field.
* `follow` — the visits in order on the fields, up to the first one that fails.
* `ResponseObject` — an object of a class whose `accept` calls `APacket::accept`,
  `Response::acceptImpl` or `MultiLineResponse::acceptImpl`.

Principal result: `ResponseObject.accept_follow` — `accept` follows the visits of the object.
-/

namespace ATLink

open Deserializer

inductive Visit where
  | attempt (seq : Text)
  | expect (seq : Text)
  | field

/-- The visits in order; fields that are not reached are left as they are. -/
def follow (input : Text) : List Visit → List ResponseField → Nat →
    Option (Bool × List ResponseField × Nat)
  | [], fs, length => some (true, fs, length)
  | .attempt seq :: vs, fs, length =>
    match visitSequence input seq length with
    | none => none
    | some (_, length) => follow input vs fs length
  | .expect seq :: vs, fs, length =>
    match visitSequence input seq length with
    | none => none
    | some (false, length) => some (false, fs, length)
    | some (true, length) => follow input vs fs length
  | .field :: vs, [], length => follow input vs [] length
  | .field :: vs, f :: fs, length =>
    match visitField input f length with
    | none => none
    | some (false, f, length) => some (false, f :: fs, length)
    | some (true, f, length) => (follow input vs fs length).map fun r => (r.1, f :: r.2.1, r.2.2)

/-- The visits of `visitWithCommas` with so many arguments. -/
def fieldVisits : Nat → List Visit
  | 0 => []
  | 1 => [.field]
  | n + 2 => .field :: .expect Constants.Comma :: fieldVisits (n + 1)

/-- The visits of `acceptWithTerm`. -/
def packetVisits (tag term : Text) (n : Nat) : List Visit :=
  (if 0 < tag.length then [.expect tag] else []) ++ (fieldVisits n ++ [.expect term])

/-- The visits of `Line::acceptImpl`. -/
def lineVisits (line : Line) : List Visit :=
  (if 0 < line.tag.length then [.attempt line.tag] else []) ++
    packetVisits line.tag Constants.CrLf line.args.length

/-- An object of a response class, by the function its `accept` calls. -/
inductive ResponseObject where
  | packet (tag : Text) (fields : List ResponseField)
  | response (tag : Text) (fields : List ResponseField)
  | multiLine (tag : Text) (lines : List Line)

namespace ResponseObject

def accept (input : Text) (length : Nat) : ResponseObject → Option (Bool × ResponseObject × Nat)
  | .packet tag fields =>
    (APacket.accept (visitor input) tag fields length).map fun r => (r.1, .packet tag r.2.1, r.2.2)
  | .response tag fields =>
    (Response.acceptImpl tag fields input length).map fun r => (r.1, .response tag r.2.1, r.2.2)
  | .multiLine tag lines =>
    (MultiLineResponse.acceptImpl tag lines input length).map fun r =>
      (r.1, .multiLine tag r.2.1, r.2.2)

/-- The fields of the object, in the order of their visits. -/
def fields : ResponseObject → List ResponseField
  | .packet _ fields => fields
  | .response _ fields => fields
  | .multiLine _ lines => lines.flatMap (·.args)

/-- The visits that `accept` makes. -/
def visits : ResponseObject → List Visit
  | .packet tag fields => packetVisits tag Constants.CrLf fields.length
  | .response tag fields => .attempt Constants.CrLf :: packetVisits tag Constants.CrLf fields.length
  | .multiLine tag lines =>
    .attempt Constants.CrLf :: ((if 0 < tag.length then [.expect tag] else []) ++
      (.attempt Constants.CrLf :: lines.flatMap lineVisits))

end ResponseObject

/-! ## The templates follow their visits -/

/-- The outcome of some visits goes on to the visits behind them. -/
def thenFollow (input : Text) (vs : List Visit) (gs : List ResponseField) :
    Option (Bool × List ResponseField × Nat) → Option (Bool × List ResponseField × Nat)
  | none => none
  | some (false, fs, length) => some (false, fs ++ gs, length)
  | some (true, fs, length) =>
    (follow input vs gs length).map fun r => (r.1, fs ++ r.2.1, r.2.2)

theorem follow_fields (input : Text) : ∀ (fs : List ResponseField) (vs : List Visit)
    (gs : List ResponseField) (length : Nat),
    follow input (fieldVisits fs.length ++ vs) (fs ++ gs) length =
      thenFollow input vs gs (visitWithCommas (visitor input) fs length)
  | [], vs, gs, length => by
    show follow input vs gs length = (follow input vs gs length).map fun r => r
    rw [Option.map_id']
  | [f], vs, gs, length => by
    show follow input (.field :: vs) (f :: gs) length = _
    simp only [follow, visitWithCommas, visitor_visit]
    rcases visitField input f length with _ | ⟨_ | _, f', n⟩
    · rfl
    · rfl
    · rfl
  | f :: g :: fs, vs, gs, length => by
    show follow input (.field :: .expect Constants.Comma :: (fieldVisits (g :: fs).length ++ vs))
      (f :: (g :: fs ++ gs)) length = _
    rcases hfield : visitField input f length with _ | ⟨_ | _, f', n⟩
    · simp only [follow, visitWithCommas, visitor_visit, hfield, thenFollow]
    · simp only [follow, visitWithCommas, visitor_visit, hfield, thenFollow, List.cons_append]
    · rcases hcomma : visitSequence input Constants.Comma n with _ | ⟨_ | _, m⟩
      · simp only [follow, visitWithCommas, visitor_visit, visitor_visitSequence, hfield, hcomma,
          thenFollow, Option.map_none]
      · simp only [follow, visitWithCommas, visitor_visit, visitor_visitSequence, hfield, hcomma,
          thenFollow, Option.map_some, List.cons_append]
      · simp only [follow, visitWithCommas, visitor_visit, visitor_visitSequence, hfield, hcomma,
          follow_fields input (g :: fs) vs gs m]
        rcases visitWithCommas (visitor input) (g :: fs) m with _ | ⟨_ | _, fs', k⟩
        · rfl
        · rfl
        · simp only [thenFollow, Option.map_map, Option.map_some]
          rfl

/-- The visits behind the tag. -/
theorem follow_untagged (input term : Text) (fs : List ResponseField) (vs : List Visit)
    (gs : List ResponseField) (length : Nat) :
    follow input (fieldVisits fs.length ++ .expect term :: vs) (fs ++ gs) length =
      thenFollow input vs gs (acceptWithTerm (visitor input) [] term fs length) := by
  simp only [follow_fields, acceptWithTerm, List.length_nil, Nat.lt_irrefl, if_false,
    visitor_visitSequence]
  rcases visitWithCommas (visitor input) fs length with _ | ⟨_ | _, fs', m⟩
  · rfl
  · rfl
  · simp only [thenFollow, follow]
    rcases visitSequence input term m with _ | ⟨_ | _, k⟩
    · rfl
    · rfl
    · rfl

theorem follow_packet (input tag term : Text) (fs : List ResponseField) (vs : List Visit)
    (gs : List ResponseField) (length : Nat) :
    follow input (packetVisits tag term fs.length ++ vs) (fs ++ gs) length =
      thenFollow input vs gs (acceptWithTerm (visitor input) tag term fs length) := by
  unfold packetVisits
  by_cases htag : 0 < tag.length
  · rw [if_pos htag]
    simp only [List.append_assoc, List.cons_append, List.nil_append, follow]
    rcases hvisit : visitSequence input tag length with _ | ⟨_ | _, n⟩
    · simp only [acceptWithTerm, htag, if_true, visitor_visitSequence, hvisit, thenFollow]
    · simp only [acceptWithTerm, htag, if_true, visitor_visitSequence, hvisit, thenFollow]
    · simp only [follow_untagged]
      simp only [acceptWithTerm, htag, if_true, visitor_visitSequence, hvisit, List.length_nil,
        Nat.lt_irrefl, if_false]
  · have hnil : tag = [] := List.length_eq_zero_iff.1 (by omega)
    rw [if_neg htag, hnil]
    simp only [List.append_assoc, List.cons_append, List.nil_append]
    exact follow_untagged input term fs vs gs length

theorem follow_line (input : Text) (line : Line) (vs : List Visit) (gs : List ResponseField)
    (length : Nat) : follow input (lineVisits line ++ vs) (line.args ++ gs) length =
      thenFollow input vs gs (Line.acceptImpl line.tag line.args input length) := by
  unfold lineVisits Line.acceptImpl APacket.accept
  by_cases htag : 0 < line.tag.length
  · rw [if_pos htag, if_pos htag]
    simp only [List.cons_append, List.nil_append, follow]
    rcases visitSequence input line.tag length with _ | ⟨ok, n⟩
    · rfl
    · simp only [follow_packet, Option.map_some]
  · rw [if_neg htag, if_neg htag, List.nil_append, follow_packet]

theorem follow_lines (input : Text) : ∀ (lines : List Line) (length : Nat),
    follow input (lines.flatMap lineVisits) (lines.flatMap (·.args)) length =
      (acceptLines input lines length).map fun r => (r.1, r.2.1.flatMap (·.args), r.2.2)
  | [], _ => rfl
  | line :: lines, length => by
    rw [List.flatMap_cons, List.flatMap_cons, follow_line, acceptLines]
    rcases Line.acceptImpl line.tag line.args input length with _ | ⟨_ | _, args, n⟩
    · rfl
    · rfl
    · simp only [thenFollow, follow_lines input lines n, Option.map_map]
      rfl

/-- **`accept` follows the visits of the object.** -/
theorem ResponseObject.accept_follow (o : ResponseObject) (input : Text) (length : Nat) :
    (o.accept input length).map (fun r => (r.1, r.2.1.fields, r.2.2)) =
      follow input o.visits o.fields length := by
  -- the visits of one packet, with nothing behind them
  have hpacket : ∀ (tag : Text) (fs : List ResponseField) (n : Nat),
      follow input (packetVisits tag Constants.CrLf fs.length) fs n =
        acceptWithTerm (visitor input) tag Constants.CrLf fs n := by
    intro tag fs n
    have h := follow_packet input tag Constants.CrLf fs [] [] n
    rw [List.append_nil, List.append_nil] at h
    rw [h]
    rcases acceptWithTerm (visitor input) tag Constants.CrLf fs n with _ | ⟨_ | _, fs', m⟩
    · rfl
    · simp only [thenFollow, List.append_nil]
    · simp only [thenFollow, follow, Option.map_some, List.append_nil]
  cases o with
  | packet tag fs =>
    show ((acceptWithTerm (visitor input) tag Constants.CrLf fs length).map _).map _ = _
    rw [Option.map_map, ← hpacket]
    exact Option.map_id'
  | response tag fs =>
    show ((Response.acceptImpl tag fs input length).map _).map _ =
      follow input (.attempt Constants.CrLf :: packetVisits tag Constants.CrLf fs.length) fs length
    simp only [Response.acceptImpl, follow, Option.map_map]
    rcases visitSequence input Constants.CrLf length with _ | ⟨ok, n⟩
    · rfl
    · simp only [hpacket]
      exact Option.map_id'
  | multiLine tag lines =>
    show ((MultiLineResponse.acceptImpl tag lines input length).map _).map _ =
      follow input (.attempt Constants.CrLf :: ((if 0 < tag.length then [.expect tag] else []) ++
        (.attempt Constants.CrLf :: lines.flatMap lineVisits))) (lines.flatMap (·.args)) length
    simp only [MultiLineResponse.acceptImpl, follow, Option.map_map]
    rcases visitSequence input Constants.CrLf length with _ | ⟨ok, n⟩
    · rfl
    · by_cases htag : 0 < tag.length
      · simp only [htag, if_true, List.cons_append, List.nil_append, follow]
        rcases visitSequence input tag n with _ | ⟨_ | _, m⟩
        · rfl
        · rfl
        · rcases hcrLf : visitSequence input Constants.CrLf m with _ | ⟨ok', k⟩
          · simp only [hcrLf, Option.map_none]
          · simp only [hcrLf, follow_lines]
            rfl
      · simp only [htag, if_false, List.nil_append, follow]
        rcases hcrLf : visitSequence input Constants.CrLf n with _ | ⟨ok', k⟩
        · simp only [Option.map_none]
        · simp only [follow_lines]
          rfl

end ATLink
