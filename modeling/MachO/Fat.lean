import MachO.ByteRange
import MachO.Header

/-!
# Fat archives

A fat archive holds images for several processors, its slices.  It begins with a table of them, in
which every word has its most significant byte first.

* `Arch`: an entry of the table;
* `FatArchive`, and `FatArchive.read`, which checks every slice;
* `FatArchive.slice`: the bytes of a slice.
-/

namespace MachO

/-- An entry of the table: a processor, and the slice for it. -/
structure Arch where
  cpuCode : UInt32
  cpuSubtype : UInt32
  offset : UInt64
  size : UInt64
  /-- The offset is a multiple of this power of two. -/
  align : UInt32
  deriving DecidableEq, Repr

/-- The processor family of a slice. -/
def Arch.cpu (a : Arch) : Cpu := Cpu.ofCode a.cpuCode

/-- The bytes of the archive that make the slice. -/
def Arch.range (a : Arch) : ByteRange := ⟨a.offset.toNat, a.size.toNat⟩

/-- The number of bytes of an entry, for the width of its offset and size. -/
def Width.archSize : Width → Nat
  | .bits32 => 20
  | .bits64 => 32

/-- Reads the unused bytes at the end of an entry: a wide one ends in a word. -/
def Width.archPadding (w : Width) : ReadM Unit :=
  match w with
  | .bits32 => return ()
  | .bits64 => do let _ ← ReadM.u32 .big

/-- Reads an entry of the table. -/
def Arch.reader (w : Width) : ReadM Arch := do
  let arch : Arch := {
    cpuCode := ← ReadM.u32 .big
    cpuSubtype := ← ReadM.u32 .big
    offset := ← ReadM.address w .big
    size := ← ReadM.address w .big
    align := ← ReadM.u32 .big }
  w.archPadding
  return arch

/-- An archive: its bytes, the width of the offsets in its table, and the table. -/
structure FatArchive where
  data : Bytes
  width : Width
  arches : List Arch
  deriving DecidableEq, Repr

namespace FatArchive

/-- The width of the offsets in the table that a first word announces. -/
def widthOfMagic? (word : UInt32) : Option Width :=
  if word = 0xcafebabe then some .bits32
  else if word = 0xcafebabf then some .bits64
  else none

/-- The first word of a byte string. -/
def magic (data : Bytes) : Except DecodeError UInt32 := (ReadM.u32 .big).runAt data 0

/-- Whether a byte string begins like an archive. -/
def isFat (data : Bytes) : Bool :=
  match magic data with
  | .ok word => (widthOfMagic? word).isSome
  | .error _ => false

/-- The number of bytes before the table. -/
def headerSize : Nat := 8

/-- Reads the width of the offsets in the table and the table, in an archive of `fileSize` bytes. -/
def reader (fileSize : Nat) : ReadM (Width × List Arch) := do
  let word ← ReadM.u32 .big
  match widthOfMagic? word with
  | none => throw (.unknownMagic word)
  | some width => do
    let count := (← ReadM.u32 .big).toNat
    ReadM.require (headerSize + count * width.archSize ≤ fileSize)
      (.truncated headerSize (count * width.archSize))
    let arches ← ReadM.times (Arch.reader width) count
    return (width, arches)

/-- Checks an entry: the slice lies in the archive, behind the table and apart from the slices that
were checked before, and its offset is a multiple of its alignment. -/
def check (tableEnd fileSize : Nat) (earlier : List Arch) (arch : Arch) :
    Except DecodeError Unit := do
  let bad := DecodeError.badArch earlier.length
  let range := arch.range
  require (range.stop < UInt64.size) (bad .wraps)
  require (range.stop ≤ fileSize) (bad .pastFile)
  require (range.IsEmpty ∨ tableEnd ≤ range.start) (bad .insideTable)
  require (arch.align.toNat ≤ 15) (bad .alignmentTooLarge)
  require (range.start % (1 <<< arch.align.toNat) = 0) (bad .misaligned)
  require (∀ other ∈ earlier, ¬range.Overlaps other.range) (bad .overlapping)

/-- Checks entries, after those that were checked before. -/
def checkAll (tableEnd fileSize : Nat) : (earlier : List Arch) → List Arch → Except DecodeError Unit
  | _, [] => .ok ()
  | earlier, arch :: arches => do
    check tableEnd fileSize earlier arch
    checkAll tableEnd fileSize (earlier ++ [arch]) arches

/-- The archive of a byte string, when its slices are as they should be. -/
def read (data : Bytes) : Except DecodeError FatArchive := do
  let (width, arches) ← (reader data.length).runAt data 0
  checkAll (headerSize + arches.length * width.archSize) data.length [] arches
  return { data, width, arches }

/-- The bytes of the archive that an entry tells of. -/
def slice (archive : FatArchive) (arch : Arch) : Except DecodeError Bytes :=
  let range := arch.range
  expect (archive.data.slice? range.start range.size) (.truncated range.start range.size)

end FatArchive

end MachO
