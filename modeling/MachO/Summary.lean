import MachO.Fat
import MachO.Image
import MachO.Text.Uuid

/-!
# Summaries

A summary tells what is in an image, and how far each of its streams can be decoded.  The failure of
one stream does not keep the others from being summarized.

* `StreamSummary`: the number of items of a stream, and why it does not go on;
* `ImageSummary`, `Image.summary`, `ImageSummary.read`;
* `SliceSummary`, `FatArchive.summaries`: summaries of the slices of a fat archive.
-/

namespace MachO

/-- Why a stream does not go on. -/
inductive StreamError
  | malformed (error : DecodeError)
  /-- The segments that the actions refer to are malformed. -/
  | noSegments
  deriving DecidableEq, Repr

/-- The wording of a stream's failure. -/
def StreamError.message : StreamError → String
  | .malformed error => error.message
  | .noSegments => "no valid segments"

/-- The number of items of a stream before its failure, and the failure. -/
structure StreamSummary where
  count : Nat
  error : Option StreamError
  deriving DecidableEq, Repr

namespace StreamSummary

/-- The summary of a stream that cannot be begun. -/
def failed (error : StreamError) : StreamSummary := ⟨0, some error⟩

/-- The summary of a stream. -/
def ofSource {σ α : Type} [Source σ α] : Except DecodeError σ → StreamSummary
  | .ok s =>
    let tally := Source.tally s
    ⟨tally.count, tally.error.map .malformed⟩
  | .error e => failed (.malformed e)

end StreamSummary

/-- What is told of a segment. -/
structure SegmentSummary where
  name : String
  address : UInt64
  memorySize : UInt64
  fileOffset : UInt64
  fileSize : UInt64
  sectionCount : Nat
  deriving DecidableEq, Repr

/-- What is told of the segment of a load command. -/
def SegmentCommand.summary (s : SegmentCommand) : SegmentSummary where
  name := s.name
  address := s.address
  memorySize := s.memorySize
  fileOffset := s.fileOffset
  fileSize := s.fileSize
  sectionCount := s.sections.length

/-- What is told of an image. -/
structure ImageSummary where
  cpu : Cpu
  fileType : FileType
  width : Width
  endian : Endian
  commandCount : Nat
  uuid : Option String
  installName : Option String
  dylibs : List String
  rpaths : List String
  segments : List SegmentSummary
  /-- Why there is no address space. -/
  segmentError : Option DecodeError
  exports : StreamSummary
  binds : StreamSummary
  lazyBinds : StreamSummary
  weakBinds : StreamSummary
  rebases : StreamSummary
  deriving DecidableEq, Repr

namespace Image

/-- The summary of a stream of actions, which needs the address space of the image. -/
def actionSummary {σ α : Type} [Source σ α] (image : Image)
    (stream : AddressSpace → Except DecodeError σ) : StreamSummary :=
  match image.addressSpace with
  | .ok space => StreamSummary.ofSource (stream space)
  | .error _ => StreamSummary.failed .noSegments

/-- Why the image has no address space. -/
def segmentError? (image : Image) : Option DecodeError :=
  match image.addressSpace with
  | .ok _ => none
  | .error failure => some failure.error

/-- The summary of an image. -/
def summary (image : Image) : ImageSummary where
  cpu := image.header.cpu
  fileType := image.header.fileType
  width := image.header.width
  endian := image.header.endian
  commandCount := image.commands.length
  uuid := image.uuid?.map Text.uuid
  installName := image.installName?
  dylibs := image.dylibs.map (·.name)
  rpaths := image.rpaths
  segments := image.segmentCommands.map (·.summary)
  segmentError := image.segmentError?
  exports := StreamSummary.ofSource image.exports
  binds := image.actionSummary fun space => image.binds space .normal
  lazyBinds := image.actionSummary fun space => image.binds space .lazy
  weakBinds := image.actionSummary fun space => image.binds space .weak
  rebases := image.actionSummary image.rebases

end Image

/-- The summary of the image in a byte string. -/
def ImageSummary.read (data : Bytes) (budget : Budget) : Except DecodeError ImageSummary := do
  return (← Image.read data budget).summary

/-- What is told of a slice of an archive. -/
structure SliceSummary where
  arch : Arch
  summary : Except DecodeError ImageSummary

namespace FatArchive

/-- The summaries of the slices of an archive, in the order of its table. -/
def summaries (archive : FatArchive) (budget : Budget) : List SliceSummary :=
  archive.arches.map fun arch =>
    { arch, summary := archive.slice arch >>= fun data => ImageSummary.read data budget }

end FatArchive

end MachO
