import MachO.Opcode.Emit
import MachO.Rebase.Op
import MachO.Stream.Dedup

/-!
# Rebase streams

* `Rebase.Action`: one slot whose pointer has to be moved;
* `Rebase.State`, `Rebase.act`, `Rebase.resume`: the meaning of the opcodes;
* `Rebase.stream`: the actions of an opcode stream, drawn one by one.
-/

namespace MachO.Rebase

/-- A slot whose pointer has to be moved together with the image. -/
structure Action where
  segment : Nat
  offset : Nat
  address : Nat
  kind : WriteKind
  /-- The position of the opcode that emits the action. -/
  position : Nat
  deriving DecidableEq, Repr

instance : Addressed Action := ⟨Action.address⟩

/-- The registers, and what is left of a suspended opcode. -/
structure State where
  registers : Registers
  run : Option Run
  deriving DecidableEq, Repr

/-- The action at the current slot. -/
def actionAt (space : AddressSpace) (position : Nat) (r : Registers) :
    Except DecodeError Action := do
  let (segment, address) ← r.target space position
  let kind ← r.writeKind position
  return { segment, offset := r.offset, address, kind, position }

/-- A state of given parts. -/
def State.of (run : Option Run) (r : Registers) : State := ⟨r, run⟩

/-- What the opcode at a position does. -/
def act (space : AddressSpace) (position : Nat) (op : Op) (s : State) : Effect State Action :=
  let r := s.registers
  let update := fun u => Effect.ofUpdate (State.of none) u r
  let run := fun count skip => Run.start space State.of (actionAt space) ⟨count, skip, position⟩ r
  let slot := space.width.pointerSize
  match op with
  | .setKind kind => .proceed { s with registers := { r with kind := some kind } }
  | .setSegment index offset => update (Registers.setSegment space index offset position)
  | .advance delta => update (Registers.advance space delta position)
  | .advanceScaled count => update (Registers.advance space (count * slot) position)
  | .emitTimes count => run count 0
  | .emitThenAdvance delta =>
    emitThenAdvance space (State.of none) (actionAt space position) (delta + slot) position r
  | .emitTimesSkipping count skip => run count skip

/-- Goes on with a suspended opcode. -/
def resume (space : AddressSpace) (s : State) : Effect State Action :=
  match s.run with
  | none => .proceed s
  | some run => run.next space State.of (actionAt space) s.registers

/-- The addresses that are left to a suspended opcode. -/
def weight (space : AddressSpace) (s : State) : Nat := space.width.span - s.registers.offset

theorem weight_lt_of_resume {space : AddressSpace} {s s' : State} {a : Action}
    (h : resume space s = .emit a none s') : weight space s' < weight space s := by
  unfold resume at h
  split at h
  · cases h
  · rename_i run _
    obtain ⟨r', hadvance, rfl⟩ := emitThenAdvance_eq_emit h
    exact Registers.span_sub_offset_lt hadvance (run.stride_pos space)

/-- What rebase opcodes are run in. -/
structure Context where
  space : AddressSpace
  deriving DecidableEq, Repr

instance : Interpreter Context Op State Action where
  resume c := resume c.space
  act c := act c.space
  weight c := weight c.space
  bound c := c.space.width.span + 1
  weight_lt_bound c s := by unfold weight; omega
  weight_lt_of_resume := weight_lt_of_resume

/-- A rebase stream under way. -/
abbrev Stream := OpcodeStream Context Op State

/-- The actions of an opcode stream, in an address space. -/
def stream (bytes : Bytes) (space : AddressSpace) (limit : Option Nat) : Stream :=
  OpcodeStream.ofProgram ⟨space⟩ (Program.ofBytes opcodes .optional bytes)
    ⟨Registers.initial, none⟩ limit

end MachO.Rebase
