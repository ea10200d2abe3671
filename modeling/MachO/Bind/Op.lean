import MachO.Opcode.Program
import MachO.Opcode.Registers

/-!
# Bind opcodes

A bind stream lists the slots that have to be filled with the addresses of symbols.

* `Bind.Op`: the opcodes;
* `Bind.specialOrdinal?`: the library ordinals that stand for special look-ups;
* `Bind.opcodes`: how opcodes are read.
-/

namespace MachO.Bind

/-- The opcodes. -/
inductive Op
  | setOrdinal (ordinal : Int)
  | setSymbol (symbol : String) (flags : UInt8)
  | setKind (kind : WriteKind)
  | setAddend (addend : Int)
  | setSegment (index : UInt8) (offset : Nat)
  /-- Moves by a number of bytes. -/
  | advance (delta : Nat)
  /-- Emits at one slot. -/
  | emit
  /-- Emits at one slot, and moves by a number of bytes behind it. -/
  | emitThenAdvance (delta : Nat)
  /-- Emits at one slot, and moves by a number of pointers behind it. -/
  | emitThenAdvanceScaled (count : Nat)
  /-- Emits at a number of slots with a number of bytes between them. -/
  | emitTimesSkipping (count skip : Nat)
  /-- Begins a table of symbols, for chains of slots. -/
  | startTable (size : Nat)
  /-- Emits at the slots of a chain, with symbols of the table. -/
  | followChain
  deriving DecidableEq, Repr

/-- The ordinal of the immediate of an opcode for special look-ups, a signed number of four bits:
`0` is the image itself, `-1` the main program, `-2` any library, `-3` the weak symbols. -/
def specialOrdinal? (imm : Nat) : Option Int :=
  if imm = 0 then some 0
  else if 13 ≤ imm then some ((imm : Int) - 16)
  else none

open ReadM (uleb sleb)

/-- Reads the operands of the opcode in a byte, which is at `position`. -/
def Op.operands (position : Nat) (byte : UInt8) : ReadM (Option Op) :=
  let imm := byte &&& 0xf
  match byte.toNat / 16 with
  | 0x0 => return none
  | 0x1 => return some (.setOrdinal imm.toNat)
  | 0x2 => do
    let ordinal ← uleb
    if 0x8000000000000000 ≤ ordinal then throw (.badUleb128 (position + 1))
    else return some (.setOrdinal ordinal)
  | 0x3 =>
    match specialOrdinal? imm.toNat with
    | some ordinal => return some (.setOrdinal ordinal)
    | none => throw (.unknownSpecialOrdinal position imm)
  | 0x4 => do
    let symbol ← ReadM.string
    if symbol.isEmpty then throw (.noSymbol position)
    else return some (.setSymbol symbol imm)
  | 0x5 =>
    match WriteKind.ofImmediate? imm with
    | some kind => return some (.setKind kind)
    | none => throw (.unknownBindKind position imm)
  | 0x6 => do return some (.setAddend (← sleb))
  | 0x7 => do return some (.setSegment imm (← uleb))
  | 0x8 => do return some (.advance (← uleb))
  | 0x9 => return some .emit
  | 0xa => do return some (.emitThenAdvance (← uleb))
  | 0xb => return some (.emitThenAdvanceScaled imm.toNat)
  | 0xc => do return some (.emitTimesSkipping (← uleb) (← uleb))
  | 0xd =>
    if imm = 0 then do return some (.startTable (← uleb))
    else if imm = 1 then return some .followChain
    else throw (.unknownThreadedOpcode position imm)
  | _ => throw (.unknownBindOpcode position byte)

/-- Reads one opcode. -/
def Op.read : ReadM (Option Op) := do
  let position ← ReadM.position
  let byte ← ReadM.u8
  Op.operands position byte

theorem Op.moves_operands (position : Nat) (byte : UInt8) :
    (Op.operands position byte).Moves 0 := by
  have number : uleb.Moves 0 := ReadM.moves_uleb.mono (by omega)
  have one : ∀ f : Nat → Option Op, ReadM.Moves 0 (do return f (← uleb)) := fun _ =>
    number.bind_of_right fun _ => ReadM.Moves.pure _
  unfold Op.operands
  dsimp only
  split
  · exact ReadM.Moves.pure _
  · exact ReadM.Moves.pure _
  · refine number.bind_of_right fun ordinal => ?_
    split
    · exact ReadM.Moves.throw _ _
    · exact ReadM.Moves.pure _
  · split
    · exact ReadM.Moves.pure _
    · exact ReadM.Moves.throw _ _
  · refine (ReadM.moves_string.mono (by omega)).bind_of_right fun symbol => ?_
    split
    · exact ReadM.Moves.throw _ _
    · exact ReadM.Moves.pure _
  · split
    · exact ReadM.Moves.pure _
    · exact ReadM.Moves.throw _ _
  · exact (ReadM.moves_sleb.mono (by omega)).bind_of_right fun _ => ReadM.Moves.pure _
  · exact one _
  · exact one _
  · exact ReadM.Moves.pure _
  · exact one _
  · exact ReadM.Moves.pure _
  · exact number.bind_of_right fun _ => one _
  · split
    · exact one _
    · split
      · exact ReadM.Moves.pure _
      · exact ReadM.Moves.throw _ _
  · exact ReadM.Moves.throw _ _

theorem Op.moves_read : Op.read.Moves 1 :=
  ReadM.moves_position.bind_of_right fun position =>
    ReadM.moves_u8.bind fun byte => Op.moves_operands position byte

/-- How bind opcodes are read. -/
def opcodes : OpcodeSet Op := ⟨Op.read, Op.moves_read⟩

end MachO.Bind
