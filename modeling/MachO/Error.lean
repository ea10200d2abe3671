import MachO.Text.Hex

/-!
# Causes of failure

Every way in which the bytes of an image can be malformed has a constructor of its own.

* `CommandDefect`, `SegmentDefect`, `SectionDefect`, `TerminalDefect`, `ArchDefect`: what is wrong
  with one load command, segment, section, export or slice;
* `DecodeError`: a failure and where it lies;
* `DecodeError.message`: the wording of a failure;
* `require`, `expect`: steps that fail unless a condition holds, or where a value is missing.

An offset is a position in the byte string that is being read: the image for headers and load
commands, the opcode or trie bytes for streams.
-/

namespace MachO

open Text (hex hexPadded)

/-- What is wrong with a load command. -/
inductive CommandDefect
  | headerPastCommands
  | sizeBelowHeader
  | sizePastCommands
  | tooMany
  | tooSmall
  | badString
  | sectionsPastSize
  deriving DecidableEq, Repr

/-- The wording of a load command's defect. -/
def CommandDefect.message : CommandDefect → String
  | .headerPastCommands => "command header past sizeofcmds"
  | .sizeBelowHeader => "cmdsize smaller than header"
  | .sizePastCommands => "cmdsize past sizeofcmds"
  | .tooMany => "too many load commands"
  | .tooSmall => "cmdsize too small for command"
  | .badString => "bad string in command"
  | .sectionsPastSize => "section headers past cmdsize"

/-- What is wrong with a segment. -/
inductive SegmentDefect
  | memoryWraps
  | memoryBeyondWidth
  | fileWraps
  | fileLargerThanMemory
  | filePastImage
  deriving DecidableEq, Repr

/-- The wording of a segment's defect. -/
def SegmentDefect.message : SegmentDefect → String
  | .memoryWraps => "memory range wraps"
  | .memoryBeyondWidth => "memory range exceeds address width"
  | .fileWraps => "file range wraps"
  | .fileLargerThanMemory => "file size exceeds memory size"
  | .filePastImage => "file range past end of image"

/-- What is wrong with a section. -/
inductive SectionDefect
  | unknownKind
  | memoryWraps
  | fileWraps
  | outsideSegment
  deriving DecidableEq, Repr

/-- The wording of a section's defect. -/
def SectionDefect.message : SectionDefect → String
  | .unknownKind => "unknown section type"
  | .memoryWraps => "memory range wraps"
  | .fileWraps => "file range wraps"
  | .outsideSegment => "section outside its segment"

/-- What is wrong with the terminal information of an export. -/
inductive TerminalDefect
  | pastTrie
  | unknownFlags
  | unknownKind
  | reexportWithResolver
  | leftover
  deriving DecidableEq, Repr

/-- The wording of a terminal's defect. -/
def TerminalDefect.message : TerminalDefect → String
  | .pastTrie => "terminal extends past end of trie"
  | .unknownFlags => "unknown export flags"
  | .unknownKind => "unknown export kind"
  | .reexportWithResolver => "re-export with resolver"
  | .leftover => "payload shorter than terminal size"

/-- What is wrong with a slice of a fat archive. -/
inductive ArchDefect
  | wraps
  | pastFile
  | insideTable
  | alignmentTooLarge
  | misaligned
  | overlapping
  deriving DecidableEq, Repr

/-- The wording of a slice's defect. -/
def ArchDefect.message : ArchDefect → String
  | .wraps => "slice range wraps"
  | .pastFile => "slice past end of file"
  | .insideTable => "slice overlaps the arch table"
  | .alignmentTooLarge => "alignment too large"
  | .misaligned => "slice misaligned"
  | .overlapping => "slice overlaps another slice"

/-- A failure to decode an image, an archive or one of the streams of an image. -/
inductive DecodeError
  /-- The first word is no magic number. -/
  | unknownMagic (magic : UInt32)
  /-- Fewer than `needed` bytes follow `offset`. -/
  | truncated (offset needed : Nat)
  | badCommand (offset : Nat) (defect : CommandDefect)
  | notUtf8 (offset : Nat)
  /-- No zero byte ends the string. -/
  | unterminated (offset : Nat)
  | badSegment (index : Nat) (defect : SegmentDefect)
  | badSection (segment index : Nat) (defect : SectionDefect)
  | segmentsOverlap (first second : Nat)
  | sectionsOverlap (segment first second : Nat)
  /-- A look-up names a segment beyond the last. -/
  | noSuchSegment (index count : Nat)
  /-- A look-up names a place beyond the end of its segment. -/
  | offsetOutside (segment offset : Nat)
  /-- No file byte lies behind the address. -/
  | notBacked (address : Nat)
  | badUleb128 (offset : Nat)
  | badSleb128 (offset : Nat)
  | badTerminal (offset : Nat) (defect : TerminalDefect)
  /-- A trie node shares a byte with an earlier one, or does not lie in the trie. -/
  | nodeOverlap (offset : Nat)
  | unnamedExport (offset : Nat)
  | trieTooDeep (offset limit : Nat)
  /-- An opcode selects a segment beyond the last. -/
  | badSegmentIndex (offset : Nat) (index : UInt8) (count : Nat)
  /-- An opcode moves or writes outside the addresses it may use. -/
  | slotOutOfBounds (offset : Nat)
  | unknownBindOpcode (offset : Nat) (opcode : UInt8)
  | unknownThreadedOpcode (offset : Nat) (opcode : UInt8)
  | unknownRebaseOpcode (offset : Nat) (opcode : UInt8)
  | unknownBindKind (offset : Nat) (kind : UInt8)
  | unknownRebaseKind (offset : Nat) (kind : UInt8)
  | unknownSpecialOrdinal (offset : Nat) (immediate : UInt8)
  | noOrdinal (offset : Nat)
  | noSegment (offset : Nat)
  | noKind (offset : Nat)
  | noSymbol (offset : Nat)
  | boundTwice (address : Nat)
  /-- A byte other than zero follows the opcode that ends the stream. -/
  | trailingBytes (offset : Nat)
  /-- No opcode ends the stream. -/
  | missingDone (offset : Nat)
  | badTableIndex (offset index size : Nat)
  | tooManyActions (limit : Nat)
  | badArch (index : Nat) (defect : ArchDefect)
  deriving DecidableEq, Repr

/-- The wording of a failure. -/
def DecodeError.message : DecodeError → String
  | .unknownMagic magic => s!"Invalid Mach-O magic: {hexPadded 8 (magic.toNat)}"
  | .truncated offset needed => s!"Truncated at {hex offset}, needed {needed} bytes"
  | .badCommand offset defect => s!"Invalid load command at {hex offset}: {defect.message}"
  | .notUtf8 offset => s!"String not UTF-8 at {hex offset}"
  | .unterminated offset => s!"Unterminated string at {hex offset}"
  | .badSegment index defect => s!"Invalid segment {index}: {defect.message}"
  | .badSection segment index defect =>
    s!"Invalid section {index} of segment {segment}: {defect.message}"
  | .segmentsOverlap first second => s!"Segments {first} and {second} overlap"
  | .sectionsOverlap segment first second =>
    s!"Sections {first} and {second} of segment {segment} overlap"
  | .noSuchSegment index count => s!"Segment index {index} out of bounds ({count} segments)"
  | .offsetOutside segment offset => s!"Offset {hex offset} out of bounds for segment {segment}"
  | .notBacked address => s!"Address {hex address} is not backed by the image"
  | .badUleb128 offset => s!"Invalid ULEB128 at {hex offset}"
  | .badSleb128 offset => s!"Invalid SLEB128 at {hex offset}"
  | .badTerminal offset defect => s!"Invalid export terminal at {hex offset}: {defect.message}"
  | .nodeOverlap offset =>
    s!"Export trie node at {hex offset} overlaps a visited node or leaves the trie"
  | .unnamedExport offset => s!"Export at {hex offset} has an empty name"
  | .trieTooDeep offset limit => s!"Export trie deeper than {limit} at {hex offset}"
  | .badSegmentIndex offset index count =>
    s!"Segment index {index} at {hex offset} out of bounds ({count} segments)"
  | .slotOutOfBounds offset => s!"Segment address out of bounds at {hex offset}"
  | .unknownBindOpcode offset opcode =>
    s!"Unrecognized bind opcode {hexPadded 2 (opcode.toNat)} at {hex offset}"
  | .unknownThreadedOpcode offset opcode =>
    s!"Unrecognized threaded bind sub-opcode {opcode} at {hex offset}"
  | .unknownRebaseOpcode offset opcode =>
    s!"Unrecognized rebase opcode {hexPadded 2 (opcode.toNat)} at {hex offset}"
  | .unknownBindKind offset kind => s!"Unrecognized bind write kind {kind} at {hex offset}"
  | .unknownRebaseKind offset kind => s!"Unrecognized rebase write kind {kind} at {hex offset}"
  | .unknownSpecialOrdinal offset immediate =>
    s!"Unrecognized special dylib ordinal {hex (immediate.toNat)} at {hex offset}"
  | .noOrdinal offset => s!"Bind at {hex offset} without a dylib ordinal"
  | .noSegment offset => s!"Action at {hex offset} without a segment index"
  | .noKind offset => s!"Action at {hex offset} without a write kind"
  | .noSymbol offset => s!"Empty bind symbol at {hex offset}"
  | .boundTwice address => s!"Multiple binds for address {hex address}"
  | .trailingBytes offset => s!"Trailing bytes after DONE at {hex offset}"
  | .missingDone offset => s!"Bind stream ends at {hex offset} without DONE"
  | .badTableIndex offset index size =>
    s!"Threaded bind ordinal {index} at {hex offset} outside table of {size}"
  | .tooManyActions limit => s!"Action limit of {limit} exceeded"
  | .badArch index defect => s!"Invalid fat arch {index}: {defect.message}"

/-- Fails unless a condition holds. -/
def require (p : Prop) [Decidable p] (e : DecodeError) : Except DecodeError Unit :=
  if p then .ok () else .error e

/-- The value that is there, or a failure. -/
def expect {α : Type} (value : Option α) (e : DecodeError) : Except DecodeError α :=
  match value with
  | some a => .ok a
  | none => .error e

@[simp] theorem ok_bind {α β : Type} (a : α) (f : α → Except DecodeError β) :
    .ok a >>= f = f a := rfl

@[simp] theorem error_bind {α β : Type} (e : DecodeError) (f : α → Except DecodeError β) :
    .error e >>= f = .error e := rfl

@[simp] theorem expect_some {α : Type} (a : α) (e : DecodeError) : expect (some a) e = .ok a := rfl

@[simp] theorem expect_none {α : Type} (e : DecodeError) :
    expect (none : Option α) e = .error e := rfl

theorem require_pos {p : Prop} [Decidable p] (h : p) (e : DecodeError) : require p e = .ok () :=
  if_pos h

theorem require_neg {p : Prop} [Decidable p] (h : ¬p) (e : DecodeError) : require p e = .error e :=
  if_neg h

/-- What a sequence of two steps does when it succeeds. -/
theorem bind_eq_ok {α β : Type} {x : Except DecodeError α} {f : α → Except DecodeError β} {b : β} :
    x >>= f = .ok b ↔ ∃ a, x = .ok a ∧ f a = .ok b := by
  cases x <;> simp [bind, Except.bind]

/-- What a sequence of two steps does when it fails. -/
theorem bind_eq_error {α β : Type} {x : Except DecodeError α} {f : α → Except DecodeError β}
    {e : DecodeError} :
    x >>= f = .error e ↔ x = .error e ∨ ∃ a, x = .ok a ∧ f a = .error e := by
  cases x <;> simp [bind, Except.bind]

@[simp] theorem require_eq_ok_iff {p : Prop} [Decidable p] {e : DecodeError} {u : Unit} :
    require p e = .ok u ↔ p := by
  unfold require
  split <;> simp [*]

@[simp] theorem expect_eq_ok_iff {α : Type} {value : Option α} {e : DecodeError} {a : α} :
    expect value e = .ok a ↔ value = some a := by
  cases value <;> simp [expect]

end MachO
