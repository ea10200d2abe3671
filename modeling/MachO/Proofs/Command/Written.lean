import MachO.Command.Decode
import MachO.Proofs.Writing

/-!
# How load commands are written

* `SectionHeader.write`, `SegmentCommand.write`, `DyldInfo.write`, with `SectionHeader.Fits` and
  `SegmentCommand.Fits` for the fields that an image of a pointer size can hold;
* `Command.fixed`, `Command.tail`: the fixed fields of a command, and the string behind them;
* `Command.Fits.readsBack_fields`: the fields of a command are read back.
-/

namespace MachO

open ReadM (ReadsBack)

/-- The unused bytes at the end of headers and sections of 64-bit images. -/
def Width.reserved (w : Width) (e : Endian) : Bytes :=
  match w with
  | .bits32 => []
  | .bits64 => e.word 0

theorem Width.readsBack_sectionPadding (w : Width) (e : Endian) :
    ReadsBack (w.sectionPadding e) () (w.reserved e) := by
  cases w with
  | bits32 => exact ReadM.readsBack_pure ()
  | bits64 => exact (ReadM.readsBack_u32 e 0).map fun _ => ()

/-! ### Segments -/

namespace SectionHeader

/-- What an image of the given pointer size can hold: the names fit their fields, and the addresses
are below the address limit. -/
structure Fits (w : Width) (header : SectionHeader) : Prop where
  name : Text.Utf8.IsField header.name
  segmentName : Text.Utf8.IsField header.segmentName
  address_lt : header.address.toNat < w.span
  size_lt : header.size.toNat < w.span

/-- The bytes of a section in a segment command. -/
def write (w : Width) (e : Endian) (header : SectionHeader) : Bytes :=
  [Text.Utf8.field header.name, Text.Utf8.field header.segmentName, e.address w header.address,
    e.address w header.size, e.word header.fileOffset, e.word header.align,
    e.word header.relocationOffset, e.word header.relocationCount, e.word header.flags,
    e.word header.reserved1, e.word header.reserved2, w.reserved e].flatten

variable {w : Width} {header : SectionHeader}

theorem Fits.length_write (h : header.Fits w) (e : Endian) :
    (header.write w e).length = w.sectionSize := by
  rw [write, List.length_flatten]
  cases w with
  | bits32 => simp [h.name.length_field, h.segmentName.length_field, Width.reserved,
      Width.pointerSize, Width.sectionSize]
  | bits64 => simp [h.name.length_field, h.segmentName.length_field, Width.reserved,
      Width.pointerSize, Width.sectionSize]

theorem Fits.readsBack (h : header.Fits w) (e : Endian) :
    ReadsBack (reader w e) header (header.write w e) := by
  refine (ReadM.readsBack_fixedName h.name).bind ?_
  refine (ReadM.readsBack_fixedName h.segmentName).bind ?_
  refine (ReadM.readsBack_address e h.address_lt).bind ?_
  refine (ReadM.readsBack_address e h.size_lt).bind ?_
  refine (ReadM.readsBack_u32 e _).bind ?_
  refine (ReadM.readsBack_u32 e _).bind ?_
  refine (ReadM.readsBack_u32 e _).bind ?_
  refine (ReadM.readsBack_u32 e _).bind ?_
  refine (ReadM.readsBack_u32 e _).bind ?_
  refine (ReadM.readsBack_u32 e _).bind ?_
  refine (ReadM.readsBack_u32 e _).bind ?_
  exact (w.readsBack_sectionPadding e).bind (ReadM.readsBack_pure header)

end SectionHeader

namespace SegmentCommand

/-- What an image of the given pointer size can hold.  The command counts its sections. -/
structure Fits (w : Width) (segment : SegmentCommand) : Prop where
  name : Text.Utf8.IsField segment.name
  address_lt : segment.address.toNat < w.span
  memorySize_lt : segment.memorySize.toNat < w.span
  fileOffset_lt : segment.fileOffset.toNat < w.span
  fileSize_lt : segment.fileSize.toNat < w.span
  sectionCount : segment.sectionCount.toNat = segment.sections.length
  sections : ∀ header ∈ segment.sections, header.Fits w

/-- The bytes of a segment command, behind its code and size. -/
def write (w : Width) (e : Endian) (segment : SegmentCommand) : Bytes :=
  [Text.Utf8.field segment.name, e.address w segment.address, e.address w segment.memorySize,
    e.address w segment.fileOffset, e.address w segment.fileSize, e.word segment.maxProtection,
    e.word segment.initProtection, e.word segment.sectionCount, e.word segment.flags,
    segment.sections.flatMap (·.write w e)].flatten

variable {w : Width} {segment : SegmentCommand}

theorem Fits.length_write (h : segment.Fits w) (e : Endian) :
    8 + (segment.write w e).length =
      w.segmentSize + segment.sectionCount.toNat * w.sectionSize := by
  have hsections : (segment.sections.flatMap (·.write w e)).length =
      segment.sectionCount.toNat * w.sectionSize := by
    rw [List.length_flatMap, List.map_congr_left fun header hheader =>
      (h.sections header hheader).length_write e, h.sectionCount]
    simp
  rw [write, List.length_flatten]
  cases w with
  | bits32 =>
    simp [h.name.length_field, hsections, Width.pointerSize, Width.segmentSize]
    omega
  | bits64 =>
    simp [h.name.length_field, hsections, Width.pointerSize, Width.segmentSize]
    omega

/-- A segment command is read back when all of it is there. -/
theorem Fits.readsBack (h : segment.Fits w) (e : Endian) {raw : RawCommand}
    (hraw : 8 + (segment.write w e).length ≤ raw.data.length) :
    ReadsBack (reader w e raw) segment (segment.write w e) := by
  refine (ReadM.readsBack_fixedName h.name).bind ?_
  refine (ReadM.readsBack_address e h.address_lt).bind ?_
  refine (ReadM.readsBack_address e h.memorySize_lt).bind ?_
  refine (ReadM.readsBack_address e h.fileOffset_lt).bind ?_
  refine (ReadM.readsBack_address e h.fileSize_lt).bind ?_
  refine (ReadM.readsBack_u32 e _).bind ?_
  refine (ReadM.readsBack_u32 e _).bind ?_
  refine (ReadM.readsBack_u32 e _).bind ?_
  refine (ReadM.readsBack_u32 e _).bind ?_
  rw [h.length_write] at hraw
  refine ReadsBack.of_require hraw _ ?_
  dsimp only
  rw [h.sectionCount]
  exact (ReadsBack.times fun header hheader => (h.sections header hheader).readsBack e).bind
    (ReadM.readsBack_pure segment)

end SegmentCommand

/-! ### Commands of all kinds -/

/-- The bytes that tell where a part of the image is. -/
def Extent.write (e : Endian) (extent : Extent) : Bytes :=
  [e.word extent.offset, e.word extent.size].flatten

theorem Extent.readsBack (e : Endian) (extent : Extent) :
    ReadsBack (reader e) extent (extent.write e) :=
  (ReadM.readsBack_u32 e _).bind <| (ReadM.readsBack_u32 e _).bind <| ReadM.readsBack_pure extent

/-- The bytes that tell where the opcode streams and the export trie are. -/
def DyldInfo.write (e : Endian) (info : DyldInfo) : Bytes :=
  [info.rebase.write e, info.bind.write e, info.weakBind.write e, info.lazyBind.write e,
    info.exports.write e].flatten

theorem DyldInfo.readsBack (e : Endian) (info : DyldInfo) :
    ReadsBack (reader e) info (info.write e) := by
  refine (Extent.readsBack e _).bind ?_
  refine (Extent.readsBack e _).bind ?_
  refine (Extent.readsBack e _).bind ?_
  refine (Extent.readsBack e _).bind ?_
  exact (Extent.readsBack e _).bind (ReadM.readsBack_pure info)

/-- A string is read back from the place that its field tells. -/
theorem RawCommand.readsBack_stringField {raw : RawCommand} {place : UInt32} {s : String}
    (h : ReadM.string.runAt raw.data place.toNat = .ok s) (e : Endian) :
    ReadsBack (raw.stringField e) s (e.word place) := by
  refine (ReadM.readsBack_u32 e place).bind_of_eq ?_
  rw [h]

/-- The kind of a command in an image of the given pointer size. -/
def Command.kind (w : Width) : Command → CommandKind
  | .segment _ => .segment w
  | .dyldInfo _ => .dyldInfo
  | .dylib library => .dylib library.kind
  | .symtab .. => .symtab
  | .dysymtab .. => .dysymtab
  | .uuid _ => .uuid
  | .main .. => .main
  | .rpath _ => .rpath
  | .other .. => .other

/-- What an image of the given pointer size can hold: strings have no zero bytes. -/
def Command.Fits (w : Width) : Command → Prop
  | .segment s => s.Fits w
  | .dylib library => 0 ∉ Text.Utf8.encode library.name
  | .uuid bytes => bytes.length = 16
  | .rpath path => 0 ∉ Text.Utf8.encode path
  | .other .. => False
  | _ => True

/-- The bytes of the fixed fields, behind the code and the size.  Strings are right behind them. -/
def Command.fixed (w : Width) (e : Endian) : Command → Bytes
  | .segment s => s.write w e
  | .dyldInfo info => info.write e
  | .dylib library => [e.word 24, e.word library.timestamp, e.word library.currentVersion,
      e.word library.compatibilityVersion].flatten
  | .symtab symbolOffset symbolCount stringOffset stringSize =>
    [e.word symbolOffset, e.word symbolCount, e.word stringOffset, e.word stringSize].flatten
  | .dysymtab firstLocal localCount firstDefined definedCount firstUndefined undefinedCount =>
    [e.word firstLocal, e.word localCount, e.word firstDefined, e.word definedCount,
      e.word firstUndefined, e.word undefinedCount].flatten
  | .uuid bytes => bytes
  | .main entryOffset stackSize => [e.long entryOffset, e.long stackSize].flatten
  | .rpath _ => e.word 12
  | .other .. => []

/-- The string behind the fixed fields. -/
def Command.tail : Command → Bytes
  | .dylib library => Text.Utf8.encode library.name ++ [0]
  | .rpath path => Text.Utf8.encode path ++ [0]
  | _ => []

variable {w : Width} {command : Command}

/-- The fixed fields take as many bytes as are asked for. -/
theorem Command.Fits.minSize_le (h : command.Fits w) (e : Endian) :
    (command.kind w).minSize ≤ 8 + (command.fixed w e).length := by
  cases command with
  | segment segment =>
    have hlength := SegmentCommand.Fits.length_write h e
    show w.segmentSize ≤ 8 + (segment.write w e).length
    omega
  | uuid bytes =>
    have hlength : bytes.length = 16 := h
    show 24 ≤ 8 + bytes.length
    omega
  | other => exact h.elim
  | _ => simp [Command.kind, CommandKind.minSize, Command.fixed, DyldInfo.write, Extent.write]

/-- The fields of a command are read back. -/
theorem Command.Fits.readsBack_fields (h : command.Fits w) (e : Endian) {raw : RawCommand}
    (hkind : raw.kind = command.kind w) {front rest : Bytes} (hfront : front.length = 8)
    (hdata : raw.data = front ++ (command.fixed w e ++ (command.tail ++ rest))) :
    ReadsBack (raw.fields e) command (command.fixed w e) := by
  -- Strings are read from behind the fixed fields.
  have hstring {s : String} (htail : command.tail = Text.Utf8.encode s ++ [0])
      (hs : 0 ∉ Text.Utf8.encode s) {place : UInt32}
      (hplace : 8 + (command.fixed w e).length = place.toNat) :
      ReadsBack (raw.stringField e) s (e.word place) := by
    have hlength : (front ++ command.fixed w e).length = place.toNat := by
      rw [List.length_append, hfront, hplace]
    rw [← List.append_assoc, htail] at hdata
    exact RawCommand.readsBack_stringField ((ReadM.readsBack_string hs).runAt hdata hlength) e
  unfold RawCommand.fields
  rw [hkind]
  cases command with
  | segment segment =>
    have hlength : 8 + (segment.write w e).length ≤ raw.data.length := by
      have heq := congrArg List.length hdata
      rw [List.length_append, List.length_append, hfront] at heq
      show 8 + (Command.fixed w e (.segment segment)).length ≤ _
      omega
    exact (SegmentCommand.Fits.readsBack h e hlength).map Command.segment
  | dyldInfo info => exact (info.readsBack e).map Command.dyldInfo
  | dylib library =>
    have hname : ReadsBack (raw.stringField e) library.name (e.word 24) :=
      hstring rfl h (by simp [Command.fixed])
    refine ReadsBack.map (a := library) ?_ Command.dylib
    refine hname.bind ?_
    refine (ReadM.readsBack_u32 e _).bind ?_
    refine (ReadM.readsBack_u32 e _).bind ?_
    exact (ReadM.readsBack_u32 e _).bind (ReadM.readsBack_pure library)
  | symtab a b c d =>
    refine (ReadM.readsBack_u32 e _).bind ?_
    refine (ReadM.readsBack_u32 e _).bind ?_
    refine (ReadM.readsBack_u32 e _).bind ?_
    exact (ReadM.readsBack_u32 e _).bind (ReadM.readsBack_pure _)
  | dysymtab =>
    refine (ReadM.readsBack_u32 e _).bind ?_
    refine (ReadM.readsBack_u32 e _).bind ?_
    refine (ReadM.readsBack_u32 e _).bind ?_
    refine (ReadM.readsBack_u32 e _).bind ?_
    refine (ReadM.readsBack_u32 e _).bind ?_
    exact (ReadM.readsBack_u32 e _).bind (ReadM.readsBack_pure _)
  | uuid bytes =>
    have htake := ReadM.readsBack_take bytes
    rw [show bytes.length = 16 from h] at htake
    exact htake.map Command.uuid
  | main =>
    refine (ReadM.readsBack_u64 e _).bind ?_
    exact (ReadM.readsBack_u64 e _).bind (ReadM.readsBack_pure _)
  | rpath path => exact (hstring rfl h (by simp [Command.fixed])).map Command.rpath
  | other => exact h.elim

end MachO
