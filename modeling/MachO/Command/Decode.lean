import MachO.Command.Walk

/-!
# The fields of load commands

* `CommandKind.minSize`: the number of bytes that the fixed fields of a command take;
* `SectionHeader.reader`, `SegmentCommand.reader`, `DyldInfo.reader`, `Dylib.reader`: records;
* `RawCommand.decode`: the command that the bytes of a load command stand for.

The readers see the bytes of one command only, behind its code and size.  Offsets in their failures
count from the start of the command, those of a `DecodeError.badCommand` from the start of the image.
-/

namespace MachO

/-- The number of bytes of a segment command before its sections. -/
def Width.segmentSize : Width → Nat
  | .bits32 => 56
  | .bits64 => 72

/-- The number of bytes of a section in a segment command. -/
def Width.sectionSize : Width → Nat
  | .bits32 => 68
  | .bits64 => 80

/-- The number of bytes that the fixed fields of a command take, with its code and size. -/
def CommandKind.minSize : CommandKind → Nat
  | .segment width => width.segmentSize
  | .symtab => 24
  | .dysymtab => 32
  | .dylib _ => 24
  | .uuid => 24
  | .rpath => 12
  | .dyldInfo => 48
  | .main => 24
  | .other => 0

/-- Reads the unused bytes at the end of a section: those of a 64-bit segment end in a word. -/
def Width.sectionPadding (w : Width) (e : Endian) : ReadM Unit :=
  match w with
  | .bits32 => return ()
  | .bits64 => do let _ ← ReadM.u32 e

/-- Reads a section. -/
def SectionHeader.reader (w : Width) (e : Endian) : ReadM SectionHeader := do
  let header : SectionHeader := {
    name := ← ReadM.fixedName
    segmentName := ← ReadM.fixedName
    address := ← ReadM.address w e
    size := ← ReadM.address w e
    fileOffset := ← ReadM.u32 e
    align := ← ReadM.u32 e
    relocationOffset := ← ReadM.u32 e
    relocationCount := ← ReadM.u32 e
    flags := ← ReadM.u32 e
    reserved1 := ← ReadM.u32 e
    reserved2 := ← ReadM.u32 e }
  w.sectionPadding e
  return header

/-- Reads the fields of a segment command.  Its sections have to lie in the command. -/
def SegmentCommand.reader (w : Width) (e : Endian) (raw : RawCommand) : ReadM SegmentCommand := do
  let segment : SegmentCommand := {
    name := ← ReadM.fixedName
    address := ← ReadM.address w e
    memorySize := ← ReadM.address w e
    fileOffset := ← ReadM.address w e
    fileSize := ← ReadM.address w e
    maxProtection := ← ReadM.u32 e
    initProtection := ← ReadM.u32 e
    sectionCount := ← ReadM.u32 e
    flags := ← ReadM.u32 e
    sections := [] }
  let count := segment.sectionCount.toNat
  ReadM.require (w.segmentSize + count * w.sectionSize ≤ raw.data.length)
    (.badCommand raw.offset .sectionsPastSize)
  let sections ← ReadM.times (SectionHeader.reader w e) count
  return { segment with sections }

/-- Reads a part of the image. -/
def Extent.reader (e : Endian) : ReadM Extent := do
  return { offset := ← ReadM.u32 e, size := ← ReadM.u32 e }

/-- Reads where the opcode streams and the export trie are. -/
def DyldInfo.reader (e : Endian) : ReadM DyldInfo := do
  return {
    rebase := ← Extent.reader e
    bind := ← Extent.reader e
    weakBind := ← Extent.reader e
    lazyBind := ← Extent.reader e
    exports := ← Extent.reader e }

/-- Reads the place of a string in the command, and the string there. -/
def RawCommand.stringField (raw : RawCommand) (e : Endian) : ReadM String := do
  let place ← ReadM.u32 e
  match ReadM.string.runAt raw.data place.toNat with
  | .ok s => return s
  | .error _ => throw (.badCommand raw.offset .badString)

/-- Reads the fields of a command that refers to a library. -/
def Dylib.reader (kind : DylibKind) (e : Endian) (raw : RawCommand) : ReadM Dylib := do
  return {
    kind
    name := ← raw.stringField e
    timestamp := ← ReadM.u32 e
    currentVersion := ← ReadM.u32 e
    compatibilityVersion := ← ReadM.u32 e }

/-- Reads the fields of a command of the given kind. -/
def RawCommand.fields (raw : RawCommand) (e : Endian) : ReadM Command :=
  let word := ReadM.u32 e
  let long := ReadM.u64 e
  match raw.kind with
  | .segment w => return .segment (← SegmentCommand.reader w e raw)
  | .symtab => return .symtab (← word) (← word) (← word) (← word)
  | .dysymtab => return .dysymtab (← word) (← word) (← word) (← word) (← word) (← word)
  | .dylib kind => return .dylib (← Dylib.reader kind e raw)
  | .uuid => return .uuid (← ReadM.take 16)
  | .rpath => return .rpath (← raw.stringField e)
  | .dyldInfo => return .dyldInfo (← DyldInfo.reader e)
  | .main => return .main (← long) (← long)
  | .other => return .other raw.code raw.data

/-- The command that the bytes of a load command stand for.  A command that is too small for the
fixed fields of its kind is malformed. -/
def RawCommand.decode (raw : RawCommand) (e : Endian) : Except DecodeError Command := do
  require (raw.kind.minSize ≤ raw.data.length) (.badCommand raw.offset .tooSmall)
  (raw.fields e).runAt raw.data 8

/-- The load commands of a walk, all of which have to be well formed. -/
def Walk.decode (walk : Walk) (e : Endian) : Except DecodeError (List Command) := do
  let commands ← walk.commands.mapM fun raw => raw.decode e
  match walk.fault with
  | some fault => throw fault
  | none => return commands

/-- The segment that a load command describes. -/
def Command.segment? : Command → Option SegmentCommand
  | .segment s => some s
  | _ => none

/-- Whether a load command describes a segment. -/
def RawCommand.isSegment (raw : RawCommand) : Bool :=
  match raw.kind with
  | .segment _ => true
  | _ => false

/-- The segments of a walk.  The load commands of other kinds are not decoded, so only their sizes
have to be right. -/
def Walk.segments (walk : Walk) (e : Endian) : Except DecodeError (List SegmentCommand) := do
  let commands ← Walk.decode { walk with commands := walk.commands.filter (·.isSegment) } e
  return commands.filterMap (·.segment?)

end MachO
