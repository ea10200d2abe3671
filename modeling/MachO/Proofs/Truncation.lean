import MachO.Bind.Stream
import MachO.Proofs.Export.Truncation
import MachO.Proofs.Opcode.Truncation
import MachO.Proofs.Portable
import MachO.Rebase.Stream

/-!
# Truncated streams

When the last bytes of a stream are missing, a decoder finds some of the first values and no others.

* `Bind.Op.extends_read`, `Rebase.Op.extends_read`: opcodes are read alike when more bytes follow;
* `values_take_isPrefix`: the streams of an image.
-/

namespace MachO

theorem Bind.Op.extends_read : Op.read.Extends := portable_opcodes.extends

theorem Rebase.Op.extends_read : Op.read.Extends := portable_opcodes.extends

/-- **Truncation only takes values away from the end**: over the first bytes of a stream, wherever
they are cut off, a decoder finds some of the first values of the whole stream, in the same order
and with the same fields. -/
theorem values_take_isPrefix (bytes : Bytes) (count : Nat) :
    (∀ (kind : Bind.StreamKind) (context : Bind.Context) (limit : Option Nat),
      Source.values (Bind.stream kind (bytes.take count) context limit) <+:
        Source.values (Bind.stream kind bytes context limit)) ∧
    (∀ (space : AddressSpace) (limit : Option Nat),
      Source.values (Rebase.stream (bytes.take count) space limit) <+:
        Source.values (Rebase.stream bytes space limit)) ∧
    ∀ maxDepth : Nat,
      Source.values (Export.trie (bytes.take count) maxDepth) <+:
        Source.values (Export.trie bytes maxDepth) := by
  refine ⟨fun kind context limit => ?_, fun space limit => ?_, fun maxDepth => ?_⟩
  · exact OpcodeStream.values_ofProgram_isPrefix context
      (Program.code_isPrefix Bind.Op.extends_read kind.doneRule bytes count) _ limit
  · exact OpcodeStream.values_ofProgram_isPrefix _
      (Program.code_isPrefix Rebase.Op.extends_read .optional bytes count) _ limit
  · exact Export.values_trie_isPrefix bytes count maxDepth

end MachO
