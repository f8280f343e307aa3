import ATLink.Packet

/-!
# Sending a command

Reference model of `Orchestrator::send` of `core/fsm/Orchestrator.h`: the command is serialized
into `txbuf` and handed to `deviceIO.write` in one piece.

* `send` — over the virtual `Command::accept`; the bytes passed to `deviceIO.write` are part of
  the result, and `reported` is what the device answers.
* `PacketCommand` — a command that is serialized through `APacket::acceptWithTerm`.

Principal result: `send_packet` — the device sees exactly the encoding of the command, or
nothing where the encoding has 512 characters or more.
-/

namespace ATLink

/-- Size of `rxstorage` and `txstorage`. -/
def storageSize : Nat := 512

/-- Outcome of `Orchestrator::send`: its result, the contents of `txbuf` and the calls of
`deviceIO.write`. -/
structure Sent where
  success : Bool
  txbuf : Text
  writes : List Text
  deriving DecidableEq

/-- `Orchestrator::send`. -/
def send (accept : Serializer → Option (Bool × Serializer)) (txbuf : Text) (reported : Nat) :
    Option Sent :=
  match accept (Serializer.init txbuf) with
  | none => none
  | some (true, serializer) =>
    let len := serializer.written
    some ⟨reported == len, serializer.buf, [serializer.output]⟩
  | some (false, serializer) => some ⟨false, serializer.buf, []⟩

/-- A command whose `accept` is `APacket::acceptWithTerm`. -/
structure PacketCommand where
  tag : Text
  term : Text
  fields : List CommandField

namespace PacketCommand

def accept (cmd : PacketCommand) (s : Serializer) : Option (Bool × Serializer) :=
  (acceptWithTerm Serializer.visitor cmd.tag cmd.term cmd.fields s).map fun r => (r.1, r.2.2)

/-- The tag, the fields joined with commas and the terminator. -/
def encoding (cmd : PacketCommand) : Text := Serializer.encodePacket cmd.tag cmd.term cmd.fields

end PacketCommand

open Serializer

/-- **Exactly the encoding or nothing**: an encoding shorter than the buffer is written in one
call, with a NUL behind it in `txbuf`, and `send` succeeds when the device reports its length; a
longer one is not written at all. -/
theorem send_packet (cmd : PacketCommand) (hterm : cmd.term = Constants.Cr ∨ cmd.term = Constants.CrLf)
    (hfields : ∀ f ∈ cmd.fields, HasString f) (txbuf : Text) (hsize : txbuf.length = storageSize)
    (reported : Nat) :
    (cmd.encoding.length < storageSize → ∃ txbuf',
        send cmd.accept txbuf reported =
          some ⟨decide (reported = cmd.encoding.length), txbuf', [cmd.encoding]⟩ ∧
        txbuf'.length = storageSize ∧ cmd.encoding <+: txbuf' ∧
        txbuf'[cmd.encoding.length]? = some 0) ∧
      (storageSize ≤ cmd.encoding.length → ∃ txbuf',
        send cmd.accept txbuf reported = some ⟨false, txbuf', []⟩) := by
  have hne : cmd.term ≠ [] := by rcases hterm with h | h <;> rw [h] <;> decide
  obtain ⟨hfit, hlong⟩ := acceptWithTerm_state cmd.tag cmd.term cmd.fields [] storageSize hne hfields
  have hinit : init txbuf = state [] storageSize := by rw [init_eq, hsize]
  rw [List.nil_append] at hfit
  constructor
  · intro hlt
    refine ⟨cmd.encoding ++ List.replicate (storageSize - cmd.encoding.length) 0, ?_, ?_,
      List.prefix_append _ _, ?_⟩
    · unfold send PacketCommand.accept
      rw [hinit, hfit hlt]
      simp only [Option.map_some, state_written, state_output]
      rfl
    · rw [List.length_append, List.length_replicate]
      exact Nat.add_sub_of_le (Nat.le_of_lt hlt)
    · rw [List.getElem?_append_right (Nat.le_refl _), Nat.sub_self, List.getElem?_replicate]
      exact if_pos (Nat.sub_pos_of_lt hlt)
  · intro hge
    obtain ⟨s, hs⟩ := hlong hge
    refine ⟨s.buf, ?_⟩
    unfold send PacketCommand.accept
    rw [hinit, hs]
    rfl

/-- The bytes of `AT+X=-7,"a\"b"` and CR, from a buffer full of older bytes. -/
theorem send_packet_example :
    ∃ txbuf', send (PacketCommand.mk (text "AT+X=") Constants.Cr
          [.int (-7), .quoted (text "a\"b")]).accept (List.replicate storageSize 65) 15 =
        some ⟨decide (15 = (text "AT+X=-7,\"a\\\"b\"\r").length), txbuf',
          [text "AT+X=-7,\"a\\\"b\"\r"]⟩ ∧
      txbuf'.length = storageSize ∧ text "AT+X=-7,\"a\\\"b\"\r" <+: txbuf' ∧
      txbuf'[(text "AT+X=-7,\"a\\\"b\"\r").length]? = some 0 :=
  (send_packet ⟨text "AT+X=", Constants.Cr, [.int (-7), .quoted (text "a\"b")]⟩ (Or.inl rfl)
    (by simp [HasString]) (List.replicate storageSize 65) (by decide +kernel) 15).1 (by decide +kernel)

end ATLink
