import MachO.Bytes

/-!
# Load commands

The load commands of an image describe its segments and sections, the libraries that it uses, and
where its tables are.

* `CommandKind`: what the code of a load command stands for;
* `RawCommand`: a load command as it lies in the image;
* `Command`: a load command with its fields read, and the records `SegmentCommand`,
  `SectionHeader`, `DyldInfo` and `Dylib` that some commands hold.
-/

namespace MachO

/-- How an image refers to a library. -/
inductive DylibKind
  | load
  | weak
  | reexport
  | upward
  | lazy
  /-- The image itself is the library. -/
  | id
  deriving DecidableEq, Repr

/-- The kinds of load commands whose fields are read. -/
inductive CommandKind
  /-- A segment with fields of the given width. -/
  | segment (width : Width)
  | symtab
  | dysymtab
  | dylib (kind : DylibKind)
  | uuid
  | rpath
  | dyldInfo
  | main
  | other
  deriving DecidableEq, Repr

/-- The kind that a code stands for.  A loader has to understand the codes from `0x80000000` on. -/
def CommandKind.ofCode (code : UInt32) : CommandKind :=
  match code.toNat with
  | 0x1 => .segment .bits32
  | 0x2 => .symtab
  | 0xb => .dysymtab
  | 0xc => .dylib .load
  | 0xd => .dylib .id
  | 0x19 => .segment .bits64
  | 0x1b => .uuid
  | 0x20 => .dylib .lazy
  | 0x22 => .dyldInfo
  | 0x80000018 => .dylib .weak
  | 0x8000001c => .rpath
  | 0x8000001f => .dylib .reexport
  | 0x80000022 => .dyldInfo
  | 0x80000023 => .dylib .upward
  | 0x80000028 => .main
  | _ => .other

/-- A load command as it lies in the image. -/
structure RawCommand where
  /-- Where the command starts in the image. -/
  offset : Nat
  code : UInt32
  /-- All bytes of the command, with its code and its size in front. -/
  data : Bytes
  deriving DecidableEq, Repr

/-- The kind of a load command. -/
def RawCommand.kind (raw : RawCommand) : CommandKind := CommandKind.ofCode raw.code

/-- A section, as its segment's load command describes it. -/
structure SectionHeader where
  name : String
  segmentName : String
  address : UInt64
  size : UInt64
  fileOffset : UInt32
  align : UInt32
  relocationOffset : UInt32
  relocationCount : UInt32
  flags : UInt32
  reserved1 : UInt32
  reserved2 : UInt32
  deriving DecidableEq, Repr

/-- A segment, as its load command describes it. -/
structure SegmentCommand where
  name : String
  address : UInt64
  memorySize : UInt64
  fileOffset : UInt64
  fileSize : UInt64
  maxProtection : UInt32
  initProtection : UInt32
  sectionCount : UInt32
  flags : UInt32
  sections : List SectionHeader
  deriving DecidableEq, Repr

/-- A part of the image. -/
structure Extent where
  offset : UInt32
  size : UInt32
  deriving DecidableEq, Repr, Inhabited

/-- Where the opcode streams and the export trie are. -/
structure DyldInfo where
  rebase : Extent
  bind : Extent
  weakBind : Extent
  lazyBind : Extent
  exports : Extent
  deriving DecidableEq, Repr, Inhabited

/-- A library that the image refers to. -/
structure Dylib where
  kind : DylibKind
  name : String
  timestamp : UInt32
  currentVersion : UInt32
  compatibilityVersion : UInt32
  deriving DecidableEq, Repr

/-- A load command with its fields read. -/
inductive Command
  | segment (segment : SegmentCommand)
  | dyldInfo (info : DyldInfo)
  | dylib (dylib : Dylib)
  | symtab (symbolOffset symbolCount stringOffset stringSize : UInt32)
  | dysymtab (firstLocal localCount firstDefined definedCount firstUndefined undefinedCount : UInt32)
  | uuid (bytes : Bytes)
  | main (entryOffset stackSize : UInt64)
  | rpath (path : String)
  /-- A command of another kind, with all its bytes. -/
  | other (code : UInt32) (data : Bytes)
  deriving DecidableEq, Repr

end MachO
