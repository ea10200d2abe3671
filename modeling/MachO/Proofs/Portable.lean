import MachO.Bind.Op
import MachO.Proofs.Opcode.Portable
import MachO.Rebase.Op

/-!
# Bind and rebase opcodes at other positions

* `Bind.portable_opcodes`, `Rebase.portable_opcodes`: opcodes are read alike at all positions and
  whatever follows them.
-/

namespace MachO

open ReadM (Portable)

theorem Bind.Op.portable_operands (byte : UInt8) :
    Portable fun position => Op.operands position byte := by
  unfold Op.operands
  dsimp only
  -- One case for each opcode, in their order.
  match byte.toNat / 16 with
  | 0x0 => exact Portable.pure _
  | 0x1 => exact Portable.pure _
  | 0x2 =>
    exact ReadM.portable_uleb.bind fun ordinal =>
      (Portable.throw fun _ _ => rfl).ite (Portable.pure _)
  | 0x3 =>
    cases specialOrdinal? (byte &&& 0xf).toNat with
    | some ordinal => exact Portable.pure _
    | none => exact Portable.throw fun _ _ => rfl
  | 0x4 =>
    exact ReadM.portable_string.bind fun symbol =>
      (Portable.throw fun _ _ => rfl).ite (Portable.pure _)
  | 0x5 =>
    cases WriteKind.ofImmediate? (byte &&& 0xf) with
    | some kind => exact Portable.pure _
    | none => exact Portable.throw fun _ _ => rfl
  | 0x6 => exact ReadM.portable_sleb.map fun addend => some (Op.setAddend addend)
  | 0x7 => exact ReadM.portable_uleb_map _
  | 0x8 => exact ReadM.portable_uleb_map _
  | 0x9 => exact Portable.pure _
  | 0xa => exact ReadM.portable_uleb_map _
  | 0xb => exact Portable.pure _
  | 0xc => exact ReadM.portable_uleb.bind fun count => ReadM.portable_uleb_map _
  | 0xd =>
    exact (ReadM.portable_uleb_map _).ite
      ((Portable.pure _).ite (Portable.throw fun _ _ => rfl))
  | _ + 0xe => exact Portable.throw fun _ _ => rfl

theorem Bind.portable_opcodes : opcodes.Portable :=
  OpcodeSet.portable_of_operands rfl Op.portable_operands

theorem Rebase.Op.portable_operands (byte : UInt8) :
    Portable fun position => Op.operands position byte := by
  unfold Op.operands
  dsimp only
  -- One case for each opcode, in their order.
  match byte.toNat / 16 with
  | 0x0 => exact Portable.pure _
  | 0x1 =>
    cases WriteKind.ofImmediate? (byte &&& 0xf) with
    | some kind => exact Portable.pure _
    | none => exact Portable.throw fun _ _ => rfl
  | 0x2 => exact ReadM.portable_uleb_map _
  | 0x3 => exact ReadM.portable_uleb_map _
  | 0x4 => exact Portable.pure _
  | 0x5 => exact Portable.pure _
  | 0x6 => exact ReadM.portable_uleb_map _
  | 0x7 => exact ReadM.portable_uleb_map _
  | 0x8 => exact ReadM.portable_uleb.bind fun count => ReadM.portable_uleb_map _
  | _ + 0x9 => exact Portable.throw fun _ _ => rfl

theorem Rebase.portable_opcodes : opcodes.Portable :=
  OpcodeSet.portable_of_operands rfl Op.portable_operands

end MachO
