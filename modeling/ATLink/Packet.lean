import ATLink.Deserializer
import ATLink.Serializer

/-!
# Packets

Reference model of `core/Packet.h`, `core/Command.h` and `core/Response.h`.

* `Visitor` — the two operations of `ACommandVisitor` / `AResponseVisitor` that the templates of
  `APacket` use, over the visitor's state `S` and the arguments `A`.  `none` is an abnormal end
  (an exception of the deserializer, a failed `assert` of the serializer).
* `visitWithCommas`, `acceptWithTerm` — the templates.
* `Response.acceptImpl`, `Line.acceptImpl`, `MultiLineResponse.acceptImpl`, `Command.acceptImpl`.

Principal result: `acceptWithTerm_state` — a command is serialized exactly when its encoding
fits the rest of the buffer with one character to spare.
-/

namespace ATLink

/-- What `APacket` asks of a visitor. -/
structure Visitor (S A : Type) where
  visitSequence : Text → S → Option (Bool × S)
  visit : A → S → Option (Bool × A × S)

/-- A `Deserializer` over `input`; its state is the cursor. -/
def Deserializer.visitor (input : Text) : Visitor Nat ResponseField where
  visitSequence seq length := visitSequence input seq length
  visit := visitField input

@[simp] theorem Deserializer.visitor_visitSequence (input seq : Text) (length : Nat) :
    (Deserializer.visitor input).visitSequence seq length = visitSequence input seq length := rfl

@[simp] theorem Deserializer.visitor_visit (input : Text) (f : ResponseField) (length : Nat) :
    (Deserializer.visitor input).visit f length = visitField input f length := rfl

/-- A `Serializer`; the visited arguments are constant. -/
def Serializer.visitor : Visitor Serializer CommandField where
  visitSequence seq s := some (s.visitSequence seq)
  visit f s := (s.visitField f).map fun r => (r.1, f, r.2)

section Templates

variable {S A : Type} (V : Visitor S A)

/-- `APacket::visitWithCommas`; without arguments it is not called. -/
def visitWithCommas : List A → S → Option (Bool × List A × S)
  | [], s => some (true, [], s)
  | [first], s => (V.visit first s).map fun r => (r.1, [r.2.1], r.2.2)
  | first :: next :: rest, s =>
    match V.visit first s with
    | none => none
    | some (false, first, s) => some (false, first :: next :: rest, s)
    | some (true, first, s) =>
      match V.visitSequence Constants.Comma s with
      | none => none
      | some (false, s) => some (false, first :: next :: rest, s)
      | some (true, s) =>
        (visitWithCommas (next :: rest) s).map fun r => (r.1, first :: r.2.1, r.2.2)

/-- `APacket::acceptWithTerm`. -/
def acceptWithTerm (tag term : Text) (args : List A) (s : S) : Option (Bool × List A × S) :=
  match (if 0 < tag.length then V.visitSequence tag s else some (true, s)) with
  | none => none
  | some (false, s) => some (false, args, s)
  | some (true, s) =>
    match visitWithCommas V args s with
    | none => none
    | some (false, args, s) => some (false, args, s)
    | some (true, args, s) => (V.visitSequence term s).map fun r => (r.1, args, r.2)

/-- `APacket::accept`. -/
def APacket.accept (tag : Text) (args : List A) (s : S) : Option (Bool × List A × S) :=
  acceptWithTerm V tag Constants.CrLf args s

end Templates

/-- `Command::acceptImpl`. -/
def Command.acceptImpl (tag : Text) (args : List CommandField) (s : Serializer) :
    Option (Bool × List CommandField × Serializer) :=
  acceptWithTerm Serializer.visitor tag Constants.Cr args s

/-- `Response::acceptImpl`. -/
def Response.acceptImpl (tag : Text) (args : List ResponseField) (input : Text) (length : Nat) :
    Option (Bool × List ResponseField × Nat) :=
  match Deserializer.visitSequence input Constants.CrLf length with
  | none => none
  | some (_, length) => acceptWithTerm (Deserializer.visitor input) tag Constants.CrLf args length

/-- `Line::acceptImpl`. -/
def Line.acceptImpl (tag : Text) (args : List ResponseField) (input : Text) (length : Nat) :
    Option (Bool × List ResponseField × Nat) :=
  match (if 0 < tag.length then (Deserializer.visitSequence input tag length).map (·.2)
      else some length) with
  | none => none
  | some length => APacket.accept (Deserializer.visitor input) tag args length

/-- A line of a multi-line response: its tag and the arguments of its `accept`. -/
structure Line where
  tag : Text
  args : List ResponseField

/-- `(lines.accept(visitor) && ...)`. -/
def acceptLines (input : Text) : List Line → Nat → Option (Bool × List Line × Nat)
  | [], length => some (true, [], length)
  | line :: lines, length =>
    match Line.acceptImpl line.tag line.args input length with
    | none => none
    | some (false, args, length) => some (false, ⟨line.tag, args⟩ :: lines, length)
    | some (true, args, length) =>
      (acceptLines input lines length).map fun r => (r.1, ⟨line.tag, args⟩ :: r.2.1, r.2.2)

/-- `MultiLineResponse::acceptImpl`. -/
def MultiLineResponse.acceptImpl (tag : Text) (lines : List Line) (input : Text) (length : Nat) :
    Option (Bool × List Line × Nat) :=
  match Deserializer.visitSequence input Constants.CrLf length with
  | none => none
  | some (_, length) =>
    match (if 0 < tag.length then Deserializer.visitSequence input tag length
        else some (true, length)) with
    | none => none
    | some (false, length) => some (false, lines, length)
    | some (true, length) =>
      match Deserializer.visitSequence input Constants.CrLf length with
      | none => none
      | some (_, length) => acceptLines input lines length

/-! ## Serialized packets -/

namespace Serializer

/-- The fields joined with commas. -/
def encodeFields (fs : List CommandField) : Text :=
  List.intercalate Constants.Comma (fs.map encodeField)

/-- Tag, fields and terminator. -/
def encodePacket (tag term : Text) (fs : List CommandField) : Text := tag ++ encodeFields fs ++ term

theorem encodeFields_cons_cons (f g : CommandField) (fs : List CommandField) :
    encodeFields (f :: g :: fs) = encodeField f ++ (Constants.Comma ++ encodeFields (g :: fs)) := by
  simp [encodeFields, List.intercalate]

theorem comma_ne_nil : Constants.Comma ≠ [] := by decide

theorem visitField_visitor {s s' : Serializer} {f : CommandField} {ok : Bool}
    (h : s.visitField f = some (ok, s')) : visitor.visit f s = some (ok, f, s') := by
  simp [visitor, h]

/-- The fields are written when they fit with a character to spare; where all of them are
accepted they are written in full. -/
theorem visitWithCommas_state : ∀ (fs : List CommandField) (E : Text) (k : Nat),
    (∀ f ∈ fs, HasString f) → ∃ ok s, visitWithCommas visitor fs (state E k) = some (ok, fs, s) ∧
      (ok = true → (encodeFields fs).length ≤ k ∧
        s = state (E ++ encodeFields fs) (k - (encodeFields fs).length)) ∧
      ((encodeFields fs).length < k → ok = true)
  | [], E, k, _ => ⟨true, _, rfl, fun _ => ⟨Nat.zero_le _, by simp [encodeFields]⟩, fun _ => rfl⟩
  | [f], E, k, hf => by
    have he : encodeFields [f] = encodeField f := by simp [encodeFields, List.intercalate]
    rw [he]
    rcases visitField_state E k f (hf f (by simp)) with ⟨hle, hv⟩ | ⟨hge, hv⟩
    · exact ⟨true, _, by rw [visitWithCommas, visitField_visitor hv]; rfl, fun _ => ⟨hle, rfl⟩,
        fun _ => rfl⟩
    · refine ⟨false, _, by rw [visitWithCommas, visitField_visitor hv]; rfl, fun h => (by cases h),
        fun hlt => absurd hlt (by omega)⟩
  | f :: g :: fs, E, k, hf => by
    have hlen : (encodeFields (f :: g :: fs)).length =
        (encodeField f).length + (1 + (encodeFields (g :: fs)).length) := by
      rw [encodeFields_cons_cons, List.length_append, List.length_append]; rfl
    rw [visitWithCommas]
    rcases visitField_state E k f (hf f (by simp)) with ⟨hle, hv⟩ | ⟨hge, hv⟩
    · rw [visitField_visitor hv]
      simp only [visitor, visitSequence_state _ _ _ comma_ne_nil]
      by_cases hcomma : Constants.Comma.length < k - (encodeField f).length
      · have hone : Constants.Comma.length = 1 := rfl
        obtain ⟨ok, s, hrec, hok, hfit⟩ := visitWithCommas_state (g :: fs)
          (E ++ encodeField f ++ Constants.Comma) (k - (encodeField f).length - Constants.Comma.length)
          fun x hx => hf x (List.mem_cons_of_mem _ hx)
        rw [if_pos hcomma]
        refine ⟨ok, s, ?_, fun h => ?_, fun hlt => hfit (by omega)⟩
        · show (visitWithCommas visitor _ _).map _ = _
          rw [hrec]; rfl
        · obtain ⟨hle', rfl⟩ := hok h
          refine ⟨by omega, ?_⟩
          rw [encodeFields_cons_cons]
          simp only [List.append_assoc, List.length_append]
          congr 1
          omega
      · have hone : Constants.Comma.length = 1 := rfl
        rw [if_neg hcomma]
        exact ⟨false, _, rfl, fun h => (by cases h), fun hlt => absurd hlt (by omega)⟩
    · rw [visitField_visitor hv]
      exact ⟨false, _, rfl, fun h => (by cases h), fun hlt => absurd hlt (by omega)⟩

/-- **Serialization is decided by the total length**: the packet is written in full when it fits
with one character to spare, and is refused otherwise. -/
theorem acceptWithTerm_state (tag term : Text) (fs : List CommandField) (E : Text) (k : Nat)
    (hterm : term ≠ []) (hf : ∀ f ∈ fs, HasString f) :
    ((encodePacket tag term fs).length < k → acceptWithTerm visitor tag term fs (state E k) =
        some (true, fs, state (E ++ encodePacket tag term fs) (k - (encodePacket tag term fs).length))) ∧
      (k ≤ (encodePacket tag term fs).length →
        ∃ s, acceptWithTerm visitor tag term fs (state E k) = some (false, fs, s)) := by
  have hlen : (encodePacket tag term fs).length =
      tag.length + (encodeFields fs).length + term.length := by
    rw [encodePacket, List.length_append, List.length_append]
  have hpos : 0 < term.length := List.length_pos_iff.2 hterm
  -- the tag, visited only when it is not empty
  have htag : (if 0 < tag.length then visitor.visitSequence tag (state E k)
      else some (true, state E k)) =
      if tag.length < k ∨ tag = [] then some (true, state (E ++ tag) (k - tag.length))
      else some (false, state E k) := by
    by_cases ht : tag = []
    · subst ht; simp
    · rw [if_pos (List.length_pos_iff.2 ht)]
      simp only [visitor, visitSequence_state _ _ _ ht, ht, or_false]
      split <;> rfl
  unfold acceptWithTerm
  rw [htag]
  by_cases hfit : tag.length < k ∨ tag = []
  · rw [if_pos hfit]
    obtain ⟨ok, s, hv, hok, hspare⟩ := visitWithCommas_state fs (E ++ tag) (k - tag.length) hf
    simp only [hv]
    cases ok with
    | false =>
      exact ⟨fun hlt => absurd (hspare (by omega)) (by simp), fun _ => ⟨s, rfl⟩⟩
    | true =>
      obtain ⟨hle, rfl⟩ := hok rfl
      simp only [visitor, visitSequence_state _ _ _ hterm]
      constructor
      · intro hlt
        rw [if_pos (by omega)]
        simp only [Option.map_some, Option.some.injEq, Prod.mk.injEq, true_and]
        rw [encodePacket]
        simp only [List.append_assoc, List.length_append]
        congr 1
        omega
      · intro hge
        have htl : tag = [] ∨ tag.length < k := hfit.symm
        rw [if_neg (by rcases htl with rfl | h <;> simp at * <;> omega)]
        exact ⟨_, rfl⟩
  · rw [if_neg hfit]
    have htl : k ≤ tag.length := by
      rcases Nat.lt_or_ge tag.length k with h | h
      · exact absurd (Or.inl h) hfit
      · exact h
    exact ⟨fun hlt => absurd hlt (by omega), fun _ => ⟨_, rfl⟩⟩

/-- Fields that are accepted have texts to be written. -/
theorem hasString_of_visitWithCommas : ∀ {fs fs' : List CommandField} {s s' : Serializer},
    visitWithCommas visitor fs s = some (true, fs', s') → ∀ f ∈ fs, HasString f
  | [], _, _, _, _ => by simp
  | [f], _, s, _, h => by
    obtain ⟨⟨ok, f', s1⟩, hvisit, hpair⟩ := Option.map_eq_some_iff.1 h
    obtain ⟨⟨ok', s2⟩, hfield, hpair'⟩ := Option.map_eq_some_iff.1 hvisit
    cases hpair'
    cases hpair
    simpa using hasString_of_visitField hfield
  | f :: g :: fs, _, s, _, h => by
    rw [visitWithCommas] at h
    split at h
    · cases h
    · cases h
    · rename_i f' s1 hvisit
      obtain ⟨⟨ok, s2⟩, hfield, hpair⟩ := Option.map_eq_some_iff.1 hvisit
      cases hpair
      split at h
      · cases h
      · cases h
      · rename_i s3 hcomma
        obtain ⟨⟨ok, fs', s4⟩, hrest, hpair⟩ := Option.map_eq_some_iff.1 h
        cases hpair
        intro x hx
        rcases List.mem_cons.1 hx with rfl | hx
        · exact hasString_of_visitField hfield
        · exact hasString_of_visitWithCommas hrest x hx

/-- **A packet that is accepted is written in full**, and all its fields have texts. -/
theorem acceptWithTerm_accepts {tag term : Text} {fs fs' : List CommandField} {E : Text} {k : Nat}
    {s : Serializer} (hterm : term ≠ [])
    (h : acceptWithTerm visitor tag term fs (state E k) = some (true, fs', s)) :
    (∀ f ∈ fs, HasString f) ∧ s.output = E ++ encodePacket tag term fs := by
  have hf : ∀ f ∈ fs, HasString f := by
    unfold acceptWithTerm at h
    split at h
    · cases h
    · cases h
    · split at h
      · cases h
      · cases h
      · rename_i hfields
        exact hasString_of_visitWithCommas hfields
  refine ⟨hf, ?_⟩
  obtain ⟨hfit, hlong⟩ := acceptWithTerm_state tag term fs E k hterm hf
  rcases Nat.lt_or_ge (encodePacket tag term fs).length k with hlt | hge
  · rw [hfit hlt] at h
    cases h
    exact state_output _ _
  · obtain ⟨s', hs'⟩ := hlong hge
    rw [hs'] at h
    cases h

end Serializer

end ATLink
