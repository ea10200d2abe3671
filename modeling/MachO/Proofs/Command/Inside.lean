import MachO.Command.Decode
import MachO.Proofs.Settles

/-!
# Commands inside their bytes

A load command is decoded from its own bytes: whatever they are, there is a command whose fields
stand in them, or one of a few failures.

* `SectionHeader.StandsAt`, `SegmentCommand.StandsIn`, `Command.StandsIn`: where the fields stand;
* `Command.strings`: the texts in a command;
* `RawCommand.Fault`: what keeps a command from being decoded;
* `RawCommand.settles_fields`: one of the two is the case, kind by kind;
* `RawCommand.decode_inside`: no decoded field lies outside the command.
-/

namespace MachO

open ReadM (Settles)
open Text.Utf8 (NameAt StringAt FoundIn)

/-! ### Where the fields stand -/

/-- The part of the image that the words at a position tell. -/
def Extent.at (e : Endian) (data : Bytes) (pos : Nat) : Extent :=
  ⟨e.wordAt data pos, e.wordAt data (pos + 4)⟩

/-- Where the opcode streams and the export trie are, as the words at a position tell. -/
def DyldInfo.at (e : Endian) (data : Bytes) (pos : Nat) : DyldInfo :=
  ⟨.at e data pos, .at e data (pos + 8), .at e data (pos + 16), .at e data (pos + 24),
    .at e data (pos + 32)⟩

/-- The fields of a section stand one behind the other from a position on. -/
structure SectionHeader.StandsAt (header : SectionHeader) (w : Width) (e : Endian) (data : Bytes)
    (pos : Nat) : Prop where
  inside : pos + w.sectionSize ≤ data.length
  name : NameAt data pos header.name
  segmentName : NameAt data (pos + 16) header.segmentName
  address : header.address = e.addressAt data (pos + 32) w
  size : header.size = e.addressAt data (pos + 32 + w.pointerSize) w
  fileOffset : header.fileOffset = e.wordAt data (pos + 32 + w.pointerSize + w.pointerSize)
  align : header.align = e.wordAt data (pos + 32 + w.pointerSize + w.pointerSize + 4)
  relocationOffset :
    header.relocationOffset = e.wordAt data (pos + 32 + w.pointerSize + w.pointerSize + 8)
  relocationCount :
    header.relocationCount = e.wordAt data (pos + 32 + w.pointerSize + w.pointerSize + 12)
  flags : header.flags = e.wordAt data (pos + 32 + w.pointerSize + w.pointerSize + 16)
  reserved1 : header.reserved1 = e.wordAt data (pos + 32 + w.pointerSize + w.pointerSize + 20)
  reserved2 : header.reserved2 = e.wordAt data (pos + 32 + w.pointerSize + w.pointerSize + 24)

/-- The position behind the addresses of a segment command. -/
def Width.segmentWords (w : Width) : Nat :=
  24 + w.pointerSize + w.pointerSize + w.pointerSize + w.pointerSize

/-- The fields of a segment stand behind the code and the size of its command, and its sections one
behind the other, as many as the command counts, with no byte outside the command. -/
structure SegmentCommand.StandsIn (segment : SegmentCommand) (w : Width) (e : Endian)
    (data : Bytes) : Prop where
  name : NameAt data 8 segment.name
  address : segment.address = e.addressAt data 24 w
  memorySize : segment.memorySize = e.addressAt data (24 + w.pointerSize) w
  fileOffset : segment.fileOffset = e.addressAt data (24 + w.pointerSize + w.pointerSize) w
  fileSize : segment.fileSize =
    e.addressAt data (24 + w.pointerSize + w.pointerSize + w.pointerSize) w
  maxProtection : segment.maxProtection = e.wordAt data w.segmentWords
  initProtection : segment.initProtection = e.wordAt data (w.segmentWords + 4)
  sectionCount : segment.sectionCount = e.wordAt data (w.segmentWords + 8)
  flags : segment.flags = e.wordAt data (w.segmentWords + 12)
  length_sections : segment.sections.length = segment.sectionCount.toNat
  table_le : w.segmentSize + segment.sectionCount.toNat * w.sectionSize ≤ data.length
  sections : ∀ i (hi : i < segment.sections.length),
    segment.sections[i].StandsAt w e data (w.segmentSize + i * w.sectionSize)

/-- The fields of a command that refers to a library stand behind its code and size, and the name
where the first of them tells. -/
structure Dylib.StandsIn (library : Dylib) (e : Endian) (data : Bytes) : Prop where
  name : StringAt data (e.wordAt data 8).toNat library.name
  timestamp : library.timestamp = e.wordAt data 12
  currentVersion : library.currentVersion = e.wordAt data 16
  compatibilityVersion : library.compatibilityVersion = e.wordAt data 20

/-- The fields of a command stand in its bytes. -/
def Command.StandsIn (raw : RawCommand) (e : Endian) : Command → Prop
  | .segment s => ∃ w, raw.kind = .segment w ∧ s.StandsIn w e raw.data
  | .dyldInfo info => raw.kind = .dyldInfo ∧ info = .at e raw.data 8
  | .dylib library => raw.kind = .dylib library.kind ∧ library.StandsIn e raw.data
  | .symtab symbolOffset symbolCount stringOffset stringSize =>
    raw.kind = .symtab ∧ [symbolOffset, symbolCount, stringOffset, stringSize] =
      [8, 12, 16, 20].map (e.wordAt raw.data)
  | .dysymtab firstLocal localCount firstDefined definedCount firstUndefined undefinedCount =>
    raw.kind = .dysymtab ∧
      [firstLocal, localCount, firstDefined, definedCount, firstUndefined, undefinedCount] =
        [8, 12, 16, 20, 24, 28].map (e.wordAt raw.data)
  | .uuid bytes => raw.kind = .uuid ∧ raw.data.slice? 8 16 = some bytes
  | .main entryOffset stackSize =>
    raw.kind = .main ∧ [entryOffset, stackSize] = [8, 16].map (e.longAt raw.data)
  | .rpath path => raw.kind = .rpath ∧ StringAt raw.data (e.wordAt raw.data 8).toNat path
  | .other code data => raw.kind = .other ∧ code = raw.code ∧ data = raw.data

/-- The texts in a command. -/
def Command.strings : Command → List String
  | .segment s => s.name :: s.sections.flatMap fun header => [header.name, header.segmentName]
  | .dylib library => [library.name]
  | .rpath path => [path]
  | _ => []

theorem SectionHeader.StandsAt.foundIn {header : SectionHeader} {w : Width} {e : Endian}
    {data : Bytes} {pos : Nat} (h : header.StandsAt w e data pos) :
    FoundIn header.name data ∧ FoundIn header.segmentName data := by
  have hinside := h.inside
  have hsize : 16 ≤ w.sectionSize := by cases w <;> decide
  exact ⟨h.name.foundIn (by omega), h.segmentName.foundIn (by omega)⟩

/-- **The texts in a command are found in its bytes.** -/
theorem Command.StandsIn.foundIn {raw : RawCommand} {e : Endian} {command : Command}
    (h : command.StandsIn raw e) : ∀ s ∈ command.strings, FoundIn s raw.data := by
  cases command with
  | segment segment =>
    obtain ⟨w, -, h⟩ := h
    refine List.forall_mem_cons.2 ⟨?_, fun s hs => ?_⟩
    · have htable := h.table_le
      have hsize : 8 ≤ w.segmentSize := by cases w <;> decide
      exact h.name.foundIn (by omega)
    · obtain ⟨header, hheader, hs⟩ := List.mem_flatMap.1 hs
      obtain ⟨i, hi, rfl⟩ := List.getElem_of_mem hheader
      obtain ⟨hname, hsegmentName⟩ := (h.sections i hi).foundIn
      rcases List.mem_pair.1 hs with rfl | rfl
      · exact hname
      · exact hsegmentName
  | dylib library => exact List.forall_mem_singleton.2 h.2.name.foundIn
  | rpath path => exact List.forall_mem_singleton.2 h.2.foundIn
  | _ => exact nofun

/-! ### What keeps a command from being decoded -/

/-- The ways in which the bytes of a command can be malformed. -/
inductive RawCommand.Fault (raw : RawCommand) (e : Endian) : DecodeError → Prop
  /-- The fixed fields do not fit. -/
  | tooSmall (h : raw.data.length < raw.kind.minSize) :
    Fault raw e (.badCommand raw.offset .tooSmall)
  /-- No text stands where the first field tells. -/
  | badString (hkind : raw.kind = .rpath ∨ ∃ kind, raw.kind = .dylib kind)
    (h : ∀ s, ¬StringAt raw.data (e.wordAt raw.data 8).toNat s) :
    Fault raw e (.badCommand raw.offset .badString)
  /-- The sections do not fit. -/
  | sectionsPastSize {w : Width} (hkind : raw.kind = .segment w)
    (h : raw.data.length <
      w.segmentSize + (e.wordAt raw.data (w.segmentWords + 8)).toNat * w.sectionSize) :
    Fault raw e (.badCommand raw.offset .sectionsPastSize)
  /-- The field of a name inside a segment command is no text. -/
  | notUtf8 {w : Width} {pos : Nat} (hkind : raw.kind = .segment w)
    (hinside : pos + 16 ≤ raw.data.length) (h : ∀ name, ¬NameAt raw.data pos name) :
    Fault raw e (.notUtf8 pos)

/-! ### Reading the fields -/

variable {w : Width} {e : Endian} {data : Bytes} {pos : Nat} {Fault : DecodeError → Prop}

theorem Extent.readsField (e : Endian) : (reader e).ReadsField 8 (Extent.at e) :=
  have hword := ReadM.readsField_u32 e
  hword.bind fun offset => hword.bind fun size => ReadM.readsField_pure (Extent.mk offset size)

theorem DyldInfo.readsField (e : Endian) : (reader e).ReadsField 40 (DyldInfo.at e) :=
  have hextent := Extent.readsField e
  hextent.bind fun rebase => hextent.bind fun bind => hextent.bind fun weakBind =>
    hextent.bind fun lazyBind => hextent.bind fun exports =>
      ReadM.readsField_pure (DyldInfo.mk rebase bind weakBind lazyBind exports)

theorem SectionHeader.settles_reader (h : pos + w.sectionSize ≤ data.length)
    (hfault : ∀ pos, pos + 16 ≤ data.length → (∀ name, ¬NameAt data pos name) →
      Fault (.notUtf8 pos)) :
    Settles (reader w e) data pos (pos + w.sectionSize) (·.StandsAt w e data pos) Fault := by
  have hsize : 32 + w.pointerSize + w.pointerSize + 28 ≤ w.sectionSize := by cases w <;> decide
  have hword := ReadM.readsField_u32 e
  have haddress := ReadM.readsField_address w e
  refine (ReadM.settles_fixedName (by omega) (hfault _ (by omega))).bind fun name hname => ?_
  refine (ReadM.settles_fixedName (by omega) (hfault _ (by omega))).bind
    fun segmentName hsegmentName => ?_
  refine (haddress.settles (by omega)).bind fun address haddress' => ?_
  refine (haddress.settles (by omega)).bind fun size hsize' => ?_
  refine (hword.settles (by omega)).bind fun fileOffset hfileOffset => ?_
  refine (hword.settles (by omega)).bind fun align halign => ?_
  refine (hword.settles (by omega)).bind fun relocationOffset hrelocationOffset => ?_
  refine (hword.settles (by omega)).bind fun relocationCount hrelocationCount => ?_
  refine (hword.settles (by omega)).bind fun flags hflags => ?_
  refine (hword.settles (by omega)).bind fun reserved1 hreserved1 => ?_
  refine (hword.settles (by omega)).bind fun reserved2 hreserved2 => ?_
  have hpadding : Settles (w.sectionPadding e) data
      (pos + 16 + 16 + w.pointerSize + w.pointerSize + 4 + 4 + 4 + 4 + 4 + 4 + 4)
      (pos + w.sectionSize) (fun _ => True) Fault := by
    cases w with
    | bits32 => exact ReadM.settles_pure trivial
    | bits64 => exact (hword.settles h).map fun _ _ => trivial
  refine hpadding.map fun _ _ => ?_
  exact ⟨h, hname, hsegmentName, haddress', hsize', hfileOffset, halign, hrelocationOffset,
    hrelocationCount, hflags, hreserved1, hreserved2⟩

/-- Sections one behind the other are read where all of them fit. -/
theorem SectionHeader.settles_times {count : Nat} (h : pos + count * w.sectionSize ≤ data.length)
    (hfault : ∀ pos, pos + 16 ≤ data.length → (∀ name, ¬NameAt data pos name) →
      Fault (.notUtf8 pos)) :
    Settles (ReadM.times (reader w e) count) data pos (pos + count * w.sectionSize)
      (fun headers => headers.length = count ∧ ∀ i (hi : i < headers.length),
        headers[i].StandsAt w e data (pos + i * w.sectionSize)) Fault := by
  refine Settles.times (P := fun pos (header : SectionHeader) => header.StandsAt w e data pos)
    fun i hi => ?_
  have hstop : (i + 1) * w.sectionSize ≤ count * w.sectionSize := Nat.mul_le_mul_right _ hi
  rw [Nat.succ_mul] at hstop
  rw [Nat.succ_mul, ← Nat.add_assoc]
  exact settles_reader (by omega) hfault

theorem SegmentCommand.settles_reader {raw : RawCommand} (hkind : raw.kind = .segment w)
    (h : w.segmentSize ≤ raw.data.length) :
    Settles (reader w e raw) raw.data 8
      (w.segmentSize + (e.wordAt raw.data (w.segmentWords + 8)).toNat * w.sectionSize)
      (·.StandsIn w e raw.data) (raw.Fault e) := by
  have hstart : 8 + 16 + w.pointerSize + w.pointerSize + w.pointerSize + w.pointerSize +
      4 + 4 + 4 + 4 = w.segmentSize := by cases w <;> rfl
  have hword := ReadM.readsField_u32 e
  have haddress := ReadM.readsField_address w e
  have hname (pos : Nat) (hinside : pos + 16 ≤ raw.data.length)
      (h : ∀ name, ¬NameAt raw.data pos name) : raw.Fault e (.notUtf8 pos) :=
    .notUtf8 hkind hinside h
  refine (ReadM.settles_fixedName (by omega) (hname _ (by omega))).bind fun name hname' => ?_
  refine (haddress.settles (by omega)).bind fun address haddress' => ?_
  refine (haddress.settles (by omega)).bind fun memorySize hmemorySize => ?_
  refine (haddress.settles (by omega)).bind fun fileOffset hfileOffset => ?_
  refine (haddress.settles (by omega)).bind fun fileSize hfileSize => ?_
  refine (hword.settles (by omega)).bind fun maxProtection hmaxProtection => ?_
  refine (hword.settles (by omega)).bind fun initProtection hinitProtection => ?_
  refine (hword.settles (by omega)).bind fun sectionCount hsectionCount => ?_
  refine (hword.settles (by omega)).bind fun flags hflags => ?_
  rw [hstart]
  have hcount : sectionCount = e.wordAt raw.data (w.segmentWords + 8) := hsectionCount
  rw [← hcount]
  refine Settles.of_require (fun hlt => ?_) fun hle => ?_
  · exact .sectionsPastSize hkind (hcount ▸ Nat.lt_of_not_le hlt)
  · have hsections := SectionHeader.settles_times (e := e) hle hname
    refine hsections.map fun sections hsections => ?_
    exact ⟨hname', haddress', hmemorySize, hfileOffset, hfileSize, hmaxProtection,
      hinitProtection, hsectionCount, hflags, hsections.1, hle, hsections.2⟩

namespace RawCommand

variable (raw : RawCommand) (e : Endian)

/-- A text is read from the place that a field tells, unless none stands there. -/
theorem settles_stringField {pos : Nat} (h : pos + 4 ≤ raw.data.length)
    (hfault : (∀ s, ¬StringAt raw.data (e.wordAt raw.data pos).toNat s) →
      raw.Fault e (.badCommand raw.offset .badString)) :
    Settles (raw.stringField e) raw.data pos (pos + 4)
      (StringAt raw.data (e.wordAt raw.data pos).toNat) (raw.Fault e) := by
  refine ((ReadM.readsField_u32 e).settles h).bind fun place hplace => ?_
  subst hplace
  cases hread : ReadM.string.runAt raw.data (e.wordAt raw.data pos).toNat with
  | ok s => exact ReadM.settles_pure (ReadM.runAt_string_eq_ok_iff.1 hread)
  | error error =>
    refine .inr ⟨_, _, rfl, hfault fun s hs => ?_⟩
    rw [ReadM.runAt_string_eq_ok_iff.2 hs] at hread
    cases hread

theorem settles_dylib {kind : DylibKind} (hkind : raw.kind = .dylib kind)
    (h : 24 ≤ raw.data.length) :
    Settles (Dylib.reader kind e raw) raw.data 8 24
      (fun library => library.kind = kind ∧ library.StandsIn e raw.data) (raw.Fault e) := by
  have hword := ReadM.readsField_u32 e
  refine (raw.settles_stringField e (by omega) (.badString (.inr ⟨kind, hkind⟩))).bind
    fun name hname => ?_
  refine (hword.settles (by omega)).bind fun timestamp htimestamp => ?_
  refine (hword.settles (by omega)).bind fun currentVersion hcurrent => ?_
  refine (hword.settles (by omega)).bind fun compatibilityVersion hcompatibility => ?_
  exact ReadM.settles_pure ⟨rfl, hname, htimestamp, hcurrent, hcompatibility⟩

/-- **The fields of a command are read, or one of its faults is found**, where its fixed fields
fit. -/
theorem settles_fields (h : raw.kind.minSize ≤ raw.data.length) :
    ∃ stop, Settles (raw.fields e) raw.data 8 stop (·.StandsIn raw e) (raw.Fault e) := by
  have hword := ReadM.readsField_u32 e
  have hlong := ReadM.readsField_u64 e
  unfold fields
  cases hkind : raw.kind with
  | segment w =>
    rw [hkind] at h
    exact ⟨_, (SegmentCommand.settles_reader hkind h).map fun segment hsegment =>
      ⟨w, hkind, hsegment⟩⟩
  | symtab =>
    rw [hkind] at h
    have hfields := hword.bind fun a => hword.bind fun b => hword.bind fun c => hword.bind fun d =>
      ReadM.readsField_pure (Command.symtab a b c d)
    refine ⟨_, (hfields.settles h).imp ?_⟩
    rintro _ rfl
    exact ⟨hkind, rfl⟩
  | dysymtab =>
    rw [hkind] at h
    have hfields := hword.bind fun a => hword.bind fun b => hword.bind fun c => hword.bind fun d =>
      hword.bind fun i => hword.bind fun j => ReadM.readsField_pure (Command.dysymtab a b c d i j)
    refine ⟨_, (hfields.settles h).imp ?_⟩
    rintro _ rfl
    exact ⟨hkind, rfl⟩
  | dylib kind =>
    rw [hkind] at h
    refine ⟨_, (raw.settles_dylib e hkind h).map ?_⟩
    rintro library ⟨rfl, hlibrary⟩
    exact ⟨hkind, hlibrary⟩
  | uuid =>
    rw [hkind] at h
    refine ⟨_, ((ReadM.readsField_take 16).settles h).map ?_⟩
    rintro _ rfl
    exact ⟨hkind, Bytes.slice?_eq_some_iff.2 ⟨h, rfl⟩⟩
  | rpath =>
    rw [hkind] at h
    exact ⟨_, (raw.settles_stringField e h (.badString (.inl hkind))).map fun path hpath =>
      ⟨hkind, hpath⟩⟩
  | dyldInfo =>
    rw [hkind] at h
    refine ⟨_, ((DyldInfo.readsField e).settles h).map ?_⟩
    rintro _ rfl
    exact ⟨hkind, rfl⟩
  | main =>
    rw [hkind] at h
    have hfields := hlong.bind fun a => hlong.bind fun b =>
      ReadM.readsField_pure (Command.main a b)
    refine ⟨_, (hfields.settles h).imp ?_⟩
    rintro _ rfl
    exact ⟨hkind, rfl⟩
  | other => exact ⟨_, ReadM.settles_pure ⟨hkind, rfl, rfl⟩⟩

/-- A command is decoded, which has room for its fixed fields, or one of its faults is found. -/
theorem settles_decode :
    (∃ command, raw.decode e = .ok command ∧ raw.kind.minSize ≤ raw.data.length ∧
        command.StandsIn raw e) ∨
      ∃ error, raw.decode e = .error error ∧ raw.Fault e error := by
  unfold decode
  by_cases hsize : raw.kind.minSize ≤ raw.data.length
  · obtain ⟨stop, hfields⟩ := raw.settles_fields e hsize
    rw [require_pos hsize, ok_bind]
    exact hfields.runAt.imp_left fun ⟨command, hread, hstands⟩ => ⟨command, hread, hsize, hstands⟩
  · rw [require_neg hsize, error_bind]
    exact .inr ⟨_, rfl, .tooSmall (Nat.lt_of_not_le hsize)⟩

/-- **A command is decoded from its own bytes.**  Whatever they are, there is a command whose fields
stand in them, or a failure of the command itself, or a name that is no text; never do bytes lack
where a field is read.  The texts of a command are found in its bytes, and a segment has as many
sections as it counts, all of which fit behind its fixed fields. -/
theorem decode_inside :
    ((∃ command, raw.decode e = .ok command ∧ raw.kind.minSize ≤ raw.data.length ∧
        command.StandsIn raw e ∧ ∀ s ∈ command.strings, FoundIn s raw.data) ∨
      (∃ defect, raw.decode e = .error (.badCommand raw.offset defect)) ∨
      ∃ pos, raw.decode e = .error (.notUtf8 pos)) ∧
    (∀ offset needed, raw.decode e ≠ .error (.truncated offset needed)) ∧
    (∀ error, raw.decode e = .error error → raw.Fault e error) ∧
    ∀ segment, raw.decode e = .ok (.segment segment) → ∃ w, raw.kind = .segment w ∧
      segment.sections.length = segment.sectionCount.toNat ∧
      w.segmentSize + segment.sectionCount.toNat * w.sectionSize ≤ raw.data.length ∧
      ∀ i (hi : i < segment.sections.length),
        segment.sections[i].StandsAt w e raw.data (w.segmentSize + i * w.sectionSize) := by
  rcases raw.settles_decode e with ⟨command, hdecode, hsize, hstands⟩ | ⟨error, hdecode, hfault⟩
  · rw [hdecode]
    refine ⟨.inl ⟨command, rfl, hsize, hstands, hstands.foundIn⟩, nofun, nofun, ?_⟩
    rintro segment ⟨⟩
    obtain ⟨w, hkind, hsegment⟩ := hstands
    exact ⟨w, hkind, hsegment.length_sections, hsegment.table_le, hsegment.sections⟩
  · rw [hdecode]
    refine ⟨.inr ?_, ?_, ?_, nofun⟩
    · cases hfault with
      | notUtf8 => exact .inr ⟨_, rfl⟩
      | _ => exact .inl ⟨_, rfl⟩
    · rintro offset needed ⟨⟩
      cases hfault
    · rintro _ ⟨⟩
      exact hfault

/-- The command of a segment without a name, which has a section `a`. -/
def oneSection : RawCommand where
  offset := 32
  code := 1
  data := List.replicate 48 0 ++ [1, 0, 0, 0] ++ List.replicate 4 0 ++ [97] ++ List.replicate 67 0

/-- The section stands behind the fixed fields. -/
theorem decode_inside_section :
    ∃ segment header, oneSection.decode .little = .ok (.segment segment) ∧
      segment.sections = [header] ∧ header.name = "a" ∧
      header.StandsAt .bits32 .little oneSection.data 56 := by
  have hdecode : oneSection.decode .little = .ok (.segment ⟨"", 0, 0, 0, 0, 0, 0, 1, 0,
      [⟨"a", "", 0, 0, 0, 0, 0, 0, 0, 0, 0⟩]⟩) := by decide +kernel
  obtain ⟨w, hkind, -, -, hsections⟩ := (decode_inside oneSection .little).2.2.2 _ hdecode
  have hwidth : w = .bits32 := (CommandKind.segment.inj hkind).symm
  subst hwidth
  exact ⟨_, _, hdecode, rfl, rfl, hsections 0 Nat.one_pos⟩

end RawCommand

end MachO
