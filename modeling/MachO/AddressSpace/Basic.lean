import MachO.Bytes
import MachO.ByteRange
import MachO.Error
import MachO.Text.Hex

/-!
# Address spaces

An image is mapped into memory segment by segment.

* `Protection`, `SectionKind`: how a segment may be used, and what a section holds;
* `Section`, `Segment`, `AddressSpace`: what lies where, in the file and in memory;
* look-ups: `AddressSpace.resolve` for the address of a place in a segment,
  `AddressSpace.segmentContaining?` and `AddressSpace.sectionContaining?` for what lies at an
  address, `AddressSpace.fileOffset` for the file byte behind an address.
-/

namespace MachO

/-- What a mapped segment may be used for. -/
structure Protection where
  read : Bool
  write : Bool
  execute : Bool
  deriving DecidableEq, Repr

/-- The protection in the low three bits of a word. -/
def Protection.ofBits (word : UInt32) : Protection where
  read := word.toNat.testBit 0
  write := word.toNat.testBit 1
  execute := word.toNat.testBit 2

/-- The protection as a number, one bit for each use. -/
def Protection.bits (p : Protection) : Nat :=
  p.read.toNat + 2 * p.write.toNat + 4 * p.execute.toNat

/-- The protection as three letters, such as `rw-`. -/
def Protection.text (p : Protection) : String :=
  String.ofList [if p.read then 'r' else '-', if p.write then 'w' else '-',
    if p.execute then 'x' else '-']

/-- What a section holds. -/
inductive SectionKind
  | regular
  | zeroFill
  | cStringLiterals
  | fourByteLiterals
  | eightByteLiterals
  | literalPointers
  | nonLazySymbolPointers
  | lazySymbolPointers
  | symbolStubs
  | modInitFuncPointers
  | modTermFuncPointers
  | coalesced
  | gbZeroFill
  | interposing
  | sixteenByteLiterals
  | dtraceDof
  | lazyDylibSymbolPointers
  | threadLocalRegular
  | threadLocalZeroFill
  | threadLocalVariables
  | threadLocalVariablePointers
  | threadLocalInitFunctionPointers
  | initFuncOffsets
  deriving DecidableEq, Repr

/-- The kinds of sections, in the order of their codes. -/
def SectionKind.all : List SectionKind :=
  [.regular, .zeroFill, .cStringLiterals, .fourByteLiterals, .eightByteLiterals, .literalPointers,
    .nonLazySymbolPointers, .lazySymbolPointers, .symbolStubs, .modInitFuncPointers,
    .modTermFuncPointers, .coalesced, .gbZeroFill, .interposing, .sixteenByteLiterals, .dtraceDof,
    .lazyDylibSymbolPointers, .threadLocalRegular, .threadLocalZeroFill, .threadLocalVariables,
    .threadLocalVariablePointers, .threadLocalInitFunctionPointers, .initFuncOffsets]

/-- The kind in the low byte of a section's flags. -/
def SectionKind.ofFlags? (flags : UInt32) : Option SectionKind := all[flags.toNat % 256]?

/-- Whether a section takes memory but no bytes of the file. -/
def SectionKind.isZeroFill : SectionKind → Bool
  | .zeroFill | .gbZeroFill | .threadLocalZeroFill => true
  | _ => false

/-- A part of a segment. -/
structure Section where
  name : String
  /-- The index of the segment that the section is a part of. -/
  segmentIndex : Nat
  segmentName : String
  file : ByteRange
  memory : ByteRange
  kind : SectionKind
  /-- The flags without the kind. -/
  attributes : UInt32
  align : UInt32
  reserved1 : UInt32
  reserved2 : UInt32
  deriving DecidableEq, Repr

/-- A part of the image that is mapped into memory as a whole. -/
structure Segment where
  name : String
  file : ByteRange
  memory : ByteRange
  maxProtection : Protection
  initProtection : Protection
  flags : UInt32
  sections : List Section
  deriving DecidableEq, Repr

/-- The segment in one line: name, addresses and initial protection. -/
def Segment.text (s : Segment) : String :=
  let start := Text.hex s.memory.start
  let stop := Text.hex s.memory.stop
  s!"Segment \x27{s.name}\x27 ({start}-{stop}, {s.initProtection.text})"

/-- The first section in which an address lies. -/
def Segment.sectionContaining? (s : Segment) (address : Nat) : Option Section :=
  s.sections.find? fun sect => decide (address ∈ sect.memory)

/-- The memory and file ranges that decide which file byte is behind an address of the segment:
those of the section there, or those of the segment where there is none. -/
def Segment.backing (s : Segment) (address : Nat) : ByteRange × ByteRange :=
  match s.sectionContaining? address with
  | some sect => (sect.memory, sect.file)
  | none => (s.memory, s.file)

/-- The segments of an image, in the order of its load commands. -/
structure AddressSpace where
  width : Width
  segments : List Segment
  deriving DecidableEq, Repr

namespace AddressSpace

/-- The sections of all segments, in order. -/
def sections (space : AddressSpace) : List Section := space.segments.flatMap (·.sections)

/-- The first segment of a name. -/
def byName? (space : AddressSpace) (name : String) : Option Segment :=
  space.segments.find? (·.name == name)

/-- The address of the place `offset` bytes into segment `index`. -/
def resolve (space : AddressSpace) (index offset : Nat) : Except DecodeError Nat :=
  match space.segments[index]? with
  | none => .error (.noSuchSegment index space.segments.length)
  | some segment =>
    if offset < segment.memory.size ∧ segment.memory.start + offset < space.width.span then
      .ok (segment.memory.start + offset)
    else .error (.offsetOutside index offset)

/-- The first segment in which an address lies, and its index. -/
def segmentContaining? (space : AddressSpace) (address : Nat) : Option (Nat × Segment) :=
  let index := space.segments.findIdx fun s => decide (address ∈ s.memory)
  space.segments[index]?.map fun s => (index, s)

/-- The section in which an address lies. -/
def sectionContaining? (space : AddressSpace) (address : Nat) : Option Section := do
  let (_, segment) ← space.segmentContaining? address
  segment.sectionContaining? address

/-- The place in the file of the byte that an address holds.  The end of a segment that the file
does not fill has none, and neither has a section that is filled with zeros. -/
def fileOffset (space : AddressSpace) (address : Nat) : Except DecodeError Nat :=
  match space.segmentContaining? address with
  | none => .error (.notBacked address)
  | some (_, segment) =>
    let (memory, file) := segment.backing address
    let distance := address - memory.start
    if distance < file.size then .ok (file.start + distance) else .error (.notBacked address)

end AddressSpace

end MachO
