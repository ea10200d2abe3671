import MachO.Leb128

/-!
# Opcode programs

An opcode stream is read into a program: its opcodes up to the end of the stream, each with its
position, and the failure that follows them.

* `OpcodeSet`: how one opcode is read.  Of an opcode byte, the high four bits tell the opcode and the
  low four bits are its immediate;
* `DoneRule`: what the DONE opcode does in a kind of stream;
* `Program`, `Program.ofBytes`.
-/

namespace MachO

/-- How one opcode is read; `none` stands for DONE. -/
structure OpcodeSet (Op : Type) where
  read : ReadM (Option Op)
  moves_read : read.Moves 1

/-- What DONE does in a stream. -/
inductive DoneRule
  /-- DONE ends the stream whatever follows, and may be missing. -/
  | optional
  /-- DONE ends the stream, and only zeros may follow.  Only an empty stream may do without. -/
  | required
  /-- DONE does nothing. -/
  | ignored
  deriving DecidableEq, Repr

/-- Opcodes with their positions, and the failure that follows them. -/
structure Program (Op : Type) where
  code : List (Nat × Op)
  ending : Option DecodeError

namespace Program

variable {Op : Type}

/-- The failure of a stream whose last byte was read. -/
def exhausted (rule : DoneRule) (position : Nat) : Option DecodeError :=
  match rule with
  | .required => if position = 0 then none else some (.missingDone position)
  | _ => none

/-- The failure of a stream that DONE ends; `c` is behind DONE. -/
def done (rule : DoneRule) (c : Cursor) : Option DecodeError :=
  match rule with
  | .required => if c.rest.all (· == 0) then none else some (.trailingBytes c.pos)
  | _ => none

/-- The program of the bytes from a cursor on. -/
def ofCursor (ops : OpcodeSet Op) (rule : DoneRule) (c : Cursor) : Program Op :=
  if c.atEnd then ⟨[], exhausted rule c.pos⟩
  else
    match h : ops.read c with
    | .error e _ => ⟨[], some e⟩
    | .ok none c' =>
      if rule = .ignored then
        have := ops.moves_read.length_lt h
        ofCursor ops rule c'
      else ⟨[], done rule c'⟩
    | .ok (some op) c' =>
      have := ops.moves_read.length_lt h
      let rest := ofCursor ops rule c'
      ⟨(c.pos, op) :: rest.code, rest.ending⟩
termination_by c.rest.length

/-- The program of an opcode stream. -/
def ofBytes (ops : OpcodeSet Op) (rule : DoneRule) (bytes : Bytes) : Program Op :=
  ofCursor ops rule (Cursor.of bytes 0)

end Program

end MachO
