import MachO.AddressSpace.Build
import MachO.Bind.Stream
import MachO.Config.Basic
import MachO.Export.Trie
import MachO.Rebase.Stream

/-!
# Images

* `Image`, and `Image.read` for an image with its header and load commands;
* what the load commands tell: `Image.addressSpace`, `Image.dylibs`, `Image.installName?`,
  `Image.ordinalName?`, `Image.uuid?`, `Image.rpaths`, `Image.entryOffset?`;
* the streams of the image: `Image.exports`, `Image.binds`, `Image.rebases`.
-/

namespace MachO

/-- Where a bind stream is. -/
def DyldInfo.bindExtent (info : DyldInfo) : Bind.StreamKind → Extent
  | .normal => info.bind
  | .lazy => info.lazyBind
  | .weak => info.weakBind

/-- An image with its header and load commands. -/
structure Image where
  data : Bytes
  header : Header
  commands : List Command
  /-- The limits on the streams of the image. -/
  budget : Budget
  deriving DecidableEq, Repr

namespace Image

/-- The image of a byte string.  All its load commands have to be well formed. -/
def read (data : Bytes) (budget : Budget) : Except DecodeError Image := do
  let header ← Header.read data
  require (header.commandCount.toNat ≤ budget.maxLoadCommands) (.badCommand header.size .tooMany)
  let walk ← Walk.ofImage data header
  let commands ← walk.decode header.endian
  return { data, header, commands, budget }

/-- The segments, as the load commands describe them. -/
def segmentCommands (image : Image) : List SegmentCommand := image.commands.filterMap (·.segment?)

/-- The address space of the image. -/
def addressSpace (image : Image) : Except AddressSpace.BuildFailure AddressSpace :=
  AddressSpace.build image.header.width image.data.length image.segmentCommands

/-- Where the opcode streams and the export trie are, by the first load command that tells. -/
def dyldInfo? (image : Image) : Option DyldInfo :=
  image.commands.findSome? fun
    | .dyldInfo info => some info
    | _ => none

/-- The bytes of a part of the image.  An empty part may be anywhere. -/
def extent (image : Image) (e : Extent) : Except DecodeError Bytes :=
  if e.size = 0 then .ok []
  else
    expect (image.data.slice? e.offset.toNat e.size.toNat) (.truncated e.offset.toNat e.size.toNat)

/-- The bytes of the export trie. -/
def exportData (image : Image) : Except DecodeError Bytes :=
  image.extent (image.dyldInfo?.getD default).exports

/-- The bytes of a bind stream. -/
def bindData (image : Image) (kind : Bind.StreamKind) : Except DecodeError Bytes :=
  image.extent ((image.dyldInfo?.getD default).bindExtent kind)

/-- The bytes of the rebase stream. -/
def rebaseData (image : Image) : Except DecodeError Bytes :=
  image.extent (image.dyldInfo?.getD default).rebase

/-- The exported symbols. -/
def exports (image : Image) : Except DecodeError Export.Trie := do
  return Export.trie (← image.exportData) image.budget.maxTrieDepth

/-- The actions of a bind stream. -/
def binds (image : Image) (space : AddressSpace) (kind : Bind.StreamKind) :
    Except DecodeError Bind.Stream := do
  let bytes ← image.bindData kind
  return Bind.stream kind bytes ⟨space, some (image.data, image.header.endian)⟩
    (some image.budget.maxActions)

/-- The actions of the rebase stream. -/
def rebases (image : Image) (space : AddressSpace) : Except DecodeError Rebase.Stream := do
  return Rebase.stream (← image.rebaseData) space (some image.budget.maxActions)

/-- The libraries that the image uses, in the order in which ordinals count them. -/
def dylibs (image : Image) : List Dylib :=
  image.commands.filterMap fun
    | .dylib dylib => if dylib.kind = .id then none else some dylib
    | _ => none

/-- The name of the library that the image is. -/
def installName? (image : Image) : Option String :=
  image.commands.findSome? fun
    | .dylib dylib => if dylib.kind = .id then some dylib.name else none
    | _ => none

/-- What the ordinal of a bind stands for: a special look-up, or a library counted from one. -/
def ordinalName? (image : Image) : Int → Option String
  | .ofNat 0 => some "this-image"
  | .ofNat (n + 1) => image.dylibs[n]?.map (·.name)
  | -1 => some "main-executable"
  | -2 => some "flat-namespace"
  | -3 => some "weak"
  | _ => none

/-- The UUID of the image. -/
def uuid? (image : Image) : Option Bytes :=
  image.commands.findSome? fun
    | .uuid bytes => some bytes
    | _ => none

/-- Where libraries are searched. -/
def rpaths (image : Image) : List String :=
  image.commands.filterMap fun
    | .rpath path => some path
    | _ => none

/-- Where the main function is in the file. -/
def entryOffset? (image : Image) : Option UInt64 :=
  image.commands.findSome? fun
    | .main entryOffset _ => some entryOffset
    | _ => none

end Image

end MachO
