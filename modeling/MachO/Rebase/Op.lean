import MachO.Opcode.Program
import MachO.Opcode.Registers

/-!
# Rebase opcodes

A rebase stream lists the slots whose pointers have to be moved together with the image.

* `Rebase.Op`: the opcodes;
* `Rebase.opcodes`: how they are read.
-/

namespace MachO.Rebase

/-- The opcodes. -/
inductive Op
  | setKind (kind : WriteKind)
  | setSegment (index : UInt8) (offset : Nat)
  /-- Moves by a number of bytes. -/
  | advance (delta : Nat)
  /-- Moves by a number of pointers. -/
  | advanceScaled (count : Nat)
  /-- Emits at a number of slots. -/
  | emitTimes (count : Nat)
  /-- Emits at one slot, and moves by a number of bytes behind it. -/
  | emitThenAdvance (delta : Nat)
  /-- Emits at a number of slots with a number of bytes between them. -/
  | emitTimesSkipping (count skip : Nat)
  deriving DecidableEq, Repr

open ReadM (uleb)

/-- Reads the operands of the opcode in a byte, which is at `position`. -/
def Op.operands (position : Nat) (byte : UInt8) : ReadM (Option Op) :=
  let imm := byte &&& 0xf
  match byte.toNat / 16 with
  | 0x0 => return none
  | 0x1 =>
    match WriteKind.ofImmediate? imm with
    | some kind => return some (.setKind kind)
    | none => throw (.unknownRebaseKind position imm)
  | 0x2 => do return some (.setSegment imm (← uleb))
  | 0x3 => do return some (.advance (← uleb))
  | 0x4 => return some (.advanceScaled imm.toNat)
  | 0x5 => return some (.emitTimes imm.toNat)
  | 0x6 => do return some (.emitTimes (← uleb))
  | 0x7 => do return some (.emitThenAdvance (← uleb))
  | 0x8 => do return some (.emitTimesSkipping (← uleb) (← uleb))
  | _ => throw (.unknownRebaseOpcode position byte)

/-- Reads one opcode. -/
def Op.read : ReadM (Option Op) := do
  let position ← ReadM.position
  let byte ← ReadM.u8
  Op.operands position byte

theorem Op.moves_operands (position : Nat) (byte : UInt8) :
    (Op.operands position byte).Moves 0 := by
  have number : uleb.Moves 0 := ReadM.moves_uleb.mono (by omega)
  have one : ∀ f : Nat → Option Op, ReadM.Moves 0 (do return f (← uleb)) := fun _ =>
    number.bind_of_right fun _ => ReadM.Moves.pure _
  unfold Op.operands
  dsimp only
  split
  · exact ReadM.Moves.pure _
  · split
    · exact ReadM.Moves.pure _
    · exact ReadM.Moves.throw _ _
  · exact one _
  · exact one _
  · exact ReadM.Moves.pure _
  · exact ReadM.Moves.pure _
  · exact one _
  · exact one _
  · exact number.bind_of_right fun _ => one _
  · exact ReadM.Moves.throw _ _

theorem Op.moves_read : Op.read.Moves 1 :=
  ReadM.moves_position.bind_of_right fun position =>
    ReadM.moves_u8.bind fun byte => Op.moves_operands position byte

/-- How rebase opcodes are read. -/
def opcodes : OpcodeSet Op := ⟨Op.read, Op.moves_read⟩

end MachO.Rebase
