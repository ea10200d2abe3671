import MachO.AddressSpace.Basic
import MachO.AddressSpace.Build
import MachO.Bind.Chain
import MachO.Bind.Op
import MachO.Bind.Stream
import MachO.ByteRange
import MachO.Bytes
import MachO.Command.Basic
import MachO.Command.Decode
import MachO.Command.Walk
import MachO.Config.Basic
import MachO.Config.Read
import MachO.Cursor
import MachO.Error
import MachO.Export.Node
import MachO.Export.Record
import MachO.Export.Trie
import MachO.Export.Visited
import MachO.Fat
import MachO.Header
import MachO.Image
import MachO.Input
import MachO.Json.Token
import MachO.Json.Value
import MachO.Leb128
import MachO.Opcode.Emit
import MachO.Opcode.Program
import MachO.Opcode.Registers
import MachO.Opcode.Stream
import MachO.Proofs.ActionCount
import MachO.Proofs.Actions
import MachO.Proofs.AddressSpace.Accepted
import MachO.Proofs.AddressSpace.Backing
import MachO.Proofs.AddressSpace.FileOffset
import MachO.Proofs.AddressSpace.OfImage
import MachO.Proofs.AddressSpace.Resolve
import MachO.Proofs.AddressSpace.Sections
import MachO.Proofs.AddressSpace.Valid
import MachO.Proofs.Agreement
import MachO.Proofs.Bind.Actions
import MachO.Proofs.Bind.Chains
import MachO.Proofs.Bind.Eager
import MachO.Proofs.Bind.Kinds
import MachO.Proofs.Bind.Links
import MachO.Proofs.Bind.Records
import MachO.Proofs.Bind.Slots
import MachO.Proofs.Bind.Written
import MachO.Proofs.ByteRange
import MachO.Proofs.Command.Entries
import MachO.Proofs.Command.Inside
import MachO.Proofs.Command.Region
import MachO.Proofs.Command.Written
import MachO.Proofs.Cursor
import MachO.Proofs.Dedup
import MachO.Proofs.EmitFirst
import MachO.Proofs.Ends
import MachO.Proofs.Expansion
import MachO.Proofs.Export.Completed
import MachO.Proofs.Export.Marks
import MachO.Proofs.Export.Tree
import MachO.Proofs.Export.Truncation
import MachO.Proofs.Export.Walk
import MachO.Proofs.Export.Written
import MachO.Proofs.Fat
import MachO.Proofs.Fields
import MachO.Proofs.Image
import MachO.Proofs.Leb128
import MachO.Proofs.Limit
import MachO.Proofs.Locality
import MachO.Proofs.Moves
import MachO.Proofs.Opcode.ActionCount
import MachO.Proofs.Opcode.Begun
import MachO.Proofs.Opcode.Eager
import MachO.Proofs.Opcode.EmitFirst
import MachO.Proofs.Opcode.Expansion
import MachO.Proofs.Opcode.Invariant
import MachO.Proofs.Opcode.Lifting
import MachO.Proofs.Opcode.Limit
import MachO.Proofs.Opcode.Moves
import MachO.Proofs.Opcode.Outcome
import MachO.Proofs.Opcode.Portable
import MachO.Proofs.Opcode.Positions
import MachO.Proofs.Opcode.Reached
import MachO.Proofs.Opcode.Truncation
import MachO.Proofs.Portable
import MachO.Proofs.Positions
import MachO.Proofs.Reading
import MachO.Proofs.Rebase.Actions
import MachO.Proofs.Rebase.Eager
import MachO.Proofs.Settles
import MachO.Proofs.SignedLeb128
import MachO.Proofs.Slices
import MachO.Proofs.Stream.Dedup
import MachO.Proofs.Stream.Drain
import MachO.Proofs.Summary
import MachO.Proofs.Truncation
import MachO.Proofs.UnsignedLeb128
import MachO.Proofs.Writing
import MachO.Rebase.Op
import MachO.Rebase.Stream
import MachO.Stream.Dedup
import MachO.Stream.Source
import MachO.Summary
import MachO.Text.Hex
import MachO.Text.Utf8
import MachO.Text.Uuid
