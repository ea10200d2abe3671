import MachO.AddressSpace.Basic

/-!
# Registers

Rebase and bind opcodes work on the same registers: the place in a segment that is written next, how
it is written, and for binds the symbol whose address is written.

* `WriteKind`, `Registers`;
* `Registers.advance`, `Registers.setSegment`: updates of the place.  The place may lie behind the
  end of its segment, but its address may not leave the address width (`Registers.CanAdvance`);
* `Registers.target`, `Registers.writeKind`: what a write needs.

Failures name the position of the opcode.
-/

namespace MachO

/-- How a slot is written. -/
inductive WriteKind
  | pointer
  | textAbsolute32
  | textPcRel32
  /-- A pointer with an authentication code, which only chains of slots hold. -/
  | authenticated
  deriving DecidableEq, Repr

/-- The kind that the immediate of an opcode stands for. -/
def WriteKind.ofImmediate? (imm : UInt8) : Option WriteKind :=
  if imm = 1 then some .pointer
  else if imm = 2 then some .textAbsolute32
  else if imm = 3 then some .textPcRel32
  else none

/-- The registers. -/
structure Registers where
  /-- The library of the symbol, or a negative number or zero for a special look-up. -/
  ordinal : Option Int
  symbol : Option String
  symbolFlags : UInt8
  kind : Option WriteKind
  addend : Int
  /-- The index of the segment that is written. -/
  segment : Option Nat
  /-- The place in that segment. -/
  offset : Nat
  deriving DecidableEq, Repr

namespace Registers

/-- The registers before the first opcode. -/
def initial : Registers := ⟨none, none, 0, none, 0, none, 0⟩

/-- Updates of registers, which may fail.  The registers after a failure can be looked at too. -/
abbrev Update := EStateM DecodeError Registers

/-- The address at which the current segment starts, or zero before a segment is set. -/
def base (r : Registers) (space : AddressSpace) : Nat :=
  match r.segment.bind fun index => space.segments[index]? with
  | some segment => segment.memory.start
  | none => 0

/-- Moves the place by `delta` bytes.  A failure changes nothing. -/
def advance (space : AddressSpace) (delta position : Nat) : Update Unit := fun r =>
  if r.offset + delta < UInt64.size ∧ r.base space + (r.offset + delta) ≤ space.width.span then
    .ok () { r with offset := r.offset + delta }
  else .error (.slotOutOfBounds position) r

/-- Sets the place to `offset` bytes into segment `index`.  When that place is out of bounds, the
start of the segment is set. -/
def setSegment (space : AddressSpace) (index : UInt8) (offset position : Nat) : Update Unit := do
  if space.segments.length ≤ index.toNat then
    throw (.badSegmentIndex position index space.segments.length)
  modify fun r => { r with segment := some index.toNat, offset := 0 }
  advance space offset position

/-- The segment and the address of the place. -/
def target (r : Registers) (space : AddressSpace) (position : Nat) :
    Except DecodeError (Nat × Nat) :=
  match r.segment with
  | none => .error (.noSegment position)
  | some index =>
    match space.resolve index r.offset with
    | .ok address => .ok (index, address)
    | .error _ => .error (.slotOutOfBounds position)

/-- How the place is written. -/
def writeKind (r : Registers) (position : Nat) : Except DecodeError WriteKind :=
  match r.kind with
  | some kind => .ok kind
  | none => .error (.noKind position)

/-- The place `delta` bytes further on has an address, or is the end of all addresses. -/
def CanAdvance (space : AddressSpace) (delta : Nat) (r : Registers) : Prop :=
  r.offset + delta < UInt64.size ∧ r.base space + (r.offset + delta) ≤ space.width.span

instance (space : AddressSpace) (delta : Nat) (r : Registers) :
    Decidable (r.CanAdvance space delta) := inferInstanceAs (Decidable (_ ∧ _))

/-- The failure of a move, if it fails. -/
def moveFailure? (space : AddressSpace) (delta position : Nat) (r : Registers) :
    Option DecodeError :=
  if r.CanAdvance space delta then none else some (.slotOutOfBounds position)

theorem advance_of_canAdvance {space : AddressSpace} {delta : Nat} {r : Registers}
    (h : r.CanAdvance space delta) (position : Nat) :
    advance space delta position r = .ok () { r with offset := r.offset + delta } := if_pos h

theorem advance_of_not_canAdvance {space : AddressSpace} {delta : Nat} {r : Registers}
    (h : ¬r.CanAdvance space delta) (position : Nat) :
    advance space delta position r = .error (.slotOutOfBounds position) r := if_neg h

theorem advance_eq_ok_iff {space : AddressSpace} {delta position : Nat} {r r' : Registers}
    {u : Unit} :
    advance space delta position r = .ok u r' ↔
      r.offset + delta < UInt64.size ∧ r.base space + (r.offset + delta) ≤ space.width.span ∧
        r' = { r with offset := r.offset + delta } := by
  unfold advance
  split
  · rename_i h
    constructor
    · intro h'
      cases h'
      exact ⟨h.1, h.2, rfl⟩
    · rintro ⟨-, -, rfl⟩
      rfl
  · rename_i h
    simp only [reduceCtorEq, false_iff]
    exact fun h' => h ⟨h'.1, h'.2.1⟩

/-- A move that fails changes nothing. -/
theorem advance_eq_error_iff {space : AddressSpace} {delta position : Nat} {r r' : Registers}
    {e : DecodeError} :
    advance space delta position r = .error e r' ↔
      ¬(r.offset + delta < UInt64.size ∧ r.base space + (r.offset + delta) ≤ space.width.span) ∧
        e = .slotOutOfBounds position ∧ r' = r := by
  unfold advance
  split
  · rename_i h
    simp [h]
  · rename_i h
    simp [h, eq_comm]

theorem moveFailure?_of_ok {space : AddressSpace} {delta position : Nat} {r r' : Registers}
    {u : Unit} (h : advance space delta position r = .ok u r') :
    r.moveFailure? space delta position = none := by
  obtain ⟨hoffset, haddress, -⟩ := advance_eq_ok_iff.1 h
  exact if_pos ⟨hoffset, haddress⟩

theorem moveFailure?_of_error {space : AddressSpace} {delta position : Nat} {r r' : Registers}
    {e : DecodeError} (h : advance space delta position r = .error e r') :
    r.moveFailure? space delta position = some e := by
  obtain ⟨hmove, rfl, -⟩ := advance_eq_error_iff.1 h
  exact if_neg hmove

theorem setSegment_of_lt {space : AddressSpace} {index : UInt8}
    (h : index.toNat < space.segments.length) (offset position : Nat) (r : Registers) :
    setSegment space index offset position r =
      advance space offset position { r with segment := some index.toNat, offset := 0 } := by
  unfold setSegment
  rw [if_neg (Nat.not_le.2 h)]
  rfl

theorem setSegment_of_le {space : AddressSpace} {index : UInt8}
    (h : space.segments.length ≤ index.toNat) (offset position : Nat) (r : Registers) :
    setSegment space index offset position r =
      .error (.badSegmentIndex position index space.segments.length) r := by
  unfold setSegment
  rw [if_pos h]
  rfl

/-- A successful move by a positive distance brings the place closer to the address limit. -/
theorem span_sub_offset_lt {space : AddressSpace} {delta position : Nat} {r r' : Registers}
    {u : Unit} (h : advance space delta position r = .ok u r') (hdelta : 0 < delta) :
    space.width.span - r'.offset < space.width.span - r.offset := by
  obtain ⟨-, hspan, rfl⟩ := advance_eq_ok_iff.1 h
  show _ - (r.offset + delta) < _
  omega

end Registers

end MachO
