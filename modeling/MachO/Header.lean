import MachO.Cursor

/-!
# Image headers

* `Cpu`, `FileType`: what the processor and file type codes of a header stand for;
* `Magic`: the first word of an image, which fixes its byte order and pointer size;
* `Header`, and `Header.read` for the header of an image.
-/

namespace MachO

/-- A processor family. -/
inductive Cpu
  | x86
  | x86_64
  | arm
  | arm64
  | arm64_32
  | powerPC
  | powerPC64
  | other (code : UInt32)
  deriving DecidableEq, Repr

/-- The family that a processor code stands for.  Bit 24 marks a 64-bit processor, and bit 25 one
with 32-bit pointers. -/
def Cpu.ofCode (code : UInt32) : Cpu :=
  if code = 7 then .x86
  else if code = 0x01000007 then .x86_64
  else if code = 12 then .arm
  else if code = 0x0100000c then .arm64
  else if code = 0x0200000c then .arm64_32
  else if code = 18 then .powerPC
  else if code = 0x01000012 then .powerPC64
  else .other code

/-- What an image is for. -/
inductive FileType
  | object
  | execute
  | fvmLib
  | core
  | preload
  | dylib
  | dylinker
  | bundle
  | dylibStub
  | dsym
  | kextBundle
  | fileSet
  | other (code : UInt32)
  deriving DecidableEq, Repr

/-- What a file type code stands for. -/
def FileType.ofCode (code : UInt32) : FileType :=
  match code.toNat with
  | 1 => .object
  | 2 => .execute
  | 3 => .fvmLib
  | 4 => .core
  | 5 => .preload
  | 6 => .dylib
  | 7 => .dylinker
  | 8 => .bundle
  | 9 => .dylibStub
  | 10 => .dsym
  | 11 => .kextBundle
  | 12 => .fileSet
  | _ => .other code

/-- The first word of an image, read with the least significant byte first. -/
structure Magic where
  word : UInt32
  endian : Endian
  width : Width
  deriving DecidableEq, Repr

/-- What a first word tells, when it is a magic number. -/
def Magic.ofWord? (word : UInt32) : Option Magic :=
  if word = 0xfeedface then some ⟨word, .little, .bits32⟩
  else if word = 0xfeedfacf then some ⟨word, .little, .bits64⟩
  else if word = 0xcefaedfe then some ⟨word, .big, .bits32⟩
  else if word = 0xcffaedfe then some ⟨word, .big, .bits64⟩
  else none

/-- Reads the first word of an image. -/
def Magic.reader : ReadM Magic := do
  let word ← ReadM.u32 .little
  match Magic.ofWord? word with
  | some magic => return magic
  | none => throw (.unknownMagic word)

/-- The magic number of an image. -/
def Magic.read (data : Bytes) : Except DecodeError Magic := Magic.reader.runAt data 0

/-- The header of an image. -/
structure Header where
  magic : Magic
  cpuCode : UInt32
  cpuSubtype : UInt32
  fileCode : UInt32
  /-- The number of load commands. -/
  commandCount : UInt32
  /-- The number of bytes that the load commands take. -/
  commandSize : UInt32
  flags : UInt32
  deriving DecidableEq, Repr

/-- The number of bytes of a header.  The header of a 64-bit image ends in four unused bytes. -/
def Width.headerSize : Width → Nat
  | .bits32 => 28
  | .bits64 => 32

namespace Header

/-- The byte order of the image. -/
def endian (h : Header) : Endian := h.magic.endian

/-- The pointer size of the image. -/
def width (h : Header) : Width := h.magic.width

/-- The number of bytes of the header.  The load commands start right after it. -/
def size (h : Header) : Nat := h.width.headerSize

/-- The processor family of the image. -/
def cpu (h : Header) : Cpu := Cpu.ofCode h.cpuCode

/-- What the image is for. -/
def fileType (h : Header) : FileType := FileType.ofCode h.fileCode

/-- Whether the image may be loaded at any address: bit 21 of the flags. -/
def isPie (h : Header) : Bool := h.flags &&& 0x200000 != 0

/-- Reads the fields that follow the magic number. -/
def fields (magic : Magic) : ReadM Header := do
  let word := ReadM.u32 magic.endian
  return {
    magic
    cpuCode := ← word
    cpuSubtype := ← word
    fileCode := ← word
    commandCount := ← word
    commandSize := ← word
    flags := ← word }

/-- The header of an image, all of whose bytes have to be there. -/
def read (data : Bytes) : Except DecodeError Header := do
  let magic ← Magic.read data
  require (magic.width.headerSize ≤ data.length) (.truncated 0 magic.width.headerSize)
  (fields magic).runAt data 4

end Header

end MachO
