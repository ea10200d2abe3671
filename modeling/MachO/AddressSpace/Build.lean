import MachO.AddressSpace.Basic
import MachO.Command.Decode

/-!
# Building address spaces

An address space is built from segment commands, one at a time.  A segment is placed when its
ranges fit the image and the address width, when it shares no byte of the file and no address with
a segment before it, and when its sections lie inside it and apart from each other.

* `SectionHeader.place`, `SegmentCommand.placeSections`, `AddressSpace.place`: the checks, in the
  order in which their failures are told;
* `AddressSpace.build`: all segments, or the first that is not placed and those before it;
* `AddressSpace.ofImage`: the segments of an image, from its header on.
-/

namespace MachO

/-- The bytes of the file that a section takes: none, if it is filled with zeros. -/
def SectionHeader.file? (header : SectionHeader) (kind : SectionKind) : Option ByteRange :=
  if kind.isZeroFill then some (ByteRange.emptyAt header.fileOffset.toNat)
  else ByteRange.ofSize? header.fileOffset.toNat header.size.toNat

/-- The section of a header in segment `segment`, with index `index`. -/
def SectionHeader.place (header : SectionHeader) (segment index : Nat) (segmentName : String) :
    Except DecodeError Section := do
  let kind ← expect (SectionKind.ofFlags? header.flags) (.badSection segment index .unknownKind)
  let memory ← expect (ByteRange.ofSize? header.address.toNat header.size.toNat)
    (.badSection segment index .memoryWraps)
  let file ← expect (header.file? kind) (.badSection segment index .fileWraps)
  return {
    name := header.name
    segmentIndex := segment
    segmentName
    file
    memory
    kind
    attributes := header.flags &&& 0xffffff00
    align := header.align
    reserved1 := header.reserved1
    reserved2 := header.reserved2 }

/-- The section shares a byte of the file or an address with the given ranges. -/
def Section.Meets (s : Section) (file memory : ByteRange) : Prop :=
  s.file.Overlaps file ∨ s.memory.Overlaps memory

instance (s : Section) (file memory : ByteRange) : Decidable (s.Meets file memory) :=
  inferInstanceAs (Decidable (_ ∨ _))

/-- The segment shares a byte of the file or an address with the given ranges. -/
def Segment.Meets (s : Segment) (file memory : ByteRange) : Prop :=
  s.file.Overlaps file ∨ s.memory.Overlaps memory

instance (s : Segment) (file memory : ByteRange) : Decidable (s.Meets file memory) :=
  inferInstanceAs (Decidable (_ ∨ _))

/-- The sections of the headers, after those that were placed before.  Each lies in the ranges of
its segment and apart from the sections before it. -/
def SegmentCommand.placeSections (segment : Nat) (segmentName : String) (file memory : ByteRange) :
    (placed : List Section) → List SectionHeader → Except DecodeError (List Section)
  | placed, [] => .ok placed
  | placed, header :: headers => do
    let index := placed.length
    let sect ← header.place segment index segmentName
    require (file.Covers sect.file ∧ memory.Covers sect.memory)
      (.badSection segment index .outsideSegment)
    let first := placed.findIdx fun s => s.Meets sect.file sect.memory
    require (first = index) (.sectionsOverlap segment first index)
    placeSections segment segmentName file memory (placed ++ [sect]) headers

namespace AddressSpace

/-- The segment of a load command, as the next one of an address space, in an image of `imageSize`
bytes. -/
def place (space : AddressSpace) (imageSize : Nat) (command : SegmentCommand) :
    Except DecodeError Segment := do
  let index := space.segments.length
  let memory ← expect (ByteRange.ofSize? command.address.toNat command.memorySize.toNat)
    (.badSegment index .memoryWraps)
  require (memory.IsEmpty ∨ memory.stop ≤ space.width.span) (.badSegment index .memoryBeyondWidth)
  let file ← expect (ByteRange.ofSize? command.fileOffset.toNat command.fileSize.toNat)
    (.badSegment index .fileWraps)
  require (file.size ≤ memory.size) (.badSegment index .fileLargerThanMemory)
  require (file.stop ≤ imageSize) (.badSegment index .filePastImage)
  let first := space.segments.findIdx fun s => s.Meets file memory
  require (first = index) (.segmentsOverlap first index)
  let sections ← SegmentCommand.placeSections index command.name file memory [] command.sections
  return {
    name := command.name
    file
    memory
    maxProtection := Protection.ofBits command.maxProtection
    initProtection := Protection.ofBits command.initProtection
    flags := command.flags
    sections }

/-- Why an address space could not be built, and the segments before the failure. -/
structure BuildFailure where
  accepted : AddressSpace
  error : DecodeError
  deriving DecidableEq, Repr

/-- The address space with the segments of further load commands. -/
def extend (imageSize : Nat) (space : AddressSpace) :
    List SegmentCommand → Except BuildFailure AddressSpace
  | [] => .ok space
  | command :: commands =>
    match space.place imageSize command with
    | .error error => .error ⟨space, error⟩
    | .ok segment =>
      extend imageSize { space with segments := space.segments ++ [segment] } commands

/-- The address space of segment commands, in an image of `imageSize` bytes. -/
def build (width : Width) (imageSize : Nat) (commands : List SegmentCommand) :
    Except BuildFailure AddressSpace :=
  extend imageSize ⟨width, []⟩ commands

/-- The address space of an image.  Of its load commands only those of segments are decoded. -/
def ofImage (data : Bytes) (header : Header) : Except BuildFailure AddressSpace :=
  match Walk.ofImage data header >>= fun walk => walk.segments header.endian with
  | .error error => .error ⟨⟨header.width, []⟩, error⟩
  | .ok commands => build header.width data.length commands

end AddressSpace

end MachO
