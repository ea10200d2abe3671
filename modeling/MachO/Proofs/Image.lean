import MachO.Image
import MachO.Proofs.Command.Entries

/-!
# Writing images

* `Magic.of`: the four magic numbers;
* `Header.write`, `Header.read_append`: headers;
* `Image.read_write`: an image that is written, in any byte order and pointer size, is read back.
-/

namespace MachO

open ReadM (ReadsBack)

/-- The magic number of the images of a byte order and a pointer size. -/
def Magic.of : Endian → Width → Magic
  | .little, .bits32 => ⟨0xfeedface, .little, .bits32⟩
  | .little, .bits64 => ⟨0xfeedfacf, .little, .bits64⟩
  | .big, .bits32 => ⟨0xcefaedfe, .big, .bits32⟩
  | .big, .bits64 => ⟨0xcffaedfe, .big, .bits64⟩

@[simp] theorem Magic.endian_of (e : Endian) (w : Width) : (of e w).endian = e := by
  cases e <;> cases w <;> rfl

@[simp] theorem Magic.width_of (e : Endian) (w : Width) : (of e w).width = w := by
  cases e <;> cases w <;> rfl

/-- There are no other magic numbers. -/
theorem Magic.ofWord?_eq_some_iff {word : UInt32} {magic : Magic} :
    ofWord? word = some magic ↔ magic = of magic.endian magic.width ∧ magic.word = word := by
  constructor
  · intro h
    unfold ofWord? at h
    split_ifs at h with h₁ h₂ h₃ h₄
    all_goals
      cases h
      exact ⟨by simp only [of, *], rfl⟩
  · rintro ⟨h, rfl⟩
    rw [h]
    cases magic.endian <;> cases magic.width <;> rfl

theorem Magic.ofWord?_of (e : Endian) (w : Width) : ofWord? (of e w).word = some (of e w) :=
  ofWord?_eq_some_iff.2 ⟨by rw [endian_of, width_of], rfl⟩

/-- The bytes of a magic number.  Its word is meant to be read with the least significant byte
first. -/
def Magic.write (magic : Magic) : Bytes := Endian.little.word magic.word

theorem Magic.readsBack (e : Endian) (w : Width) : ReadsBack reader (of e w) (of e w).write := by
  refine (ReadM.readsBack_u32 .little (of e w).word).bind_of_eq ?_
  rw [ofWord?_of]

namespace Header

/-- The bytes of a header, without the magic number. -/
def writeFields (h : Header) : Bytes :=
  [h.endian.word h.cpuCode, h.endian.word h.cpuSubtype, h.endian.word h.fileCode,
    h.endian.word h.commandCount, h.endian.word h.commandSize, h.endian.word h.flags].flatten

/-- The bytes of a header. -/
def write (h : Header) : Bytes := h.magic.write ++ (h.writeFields ++ h.width.reserved h.endian)

variable {h : Header} {e : Endian} {w : Width}

theorem length_write (h : Header) : h.write.length = h.size := by
  unfold size
  simp only [write, Magic.write, writeFields, List.length_append, List.length_flatten]
  cases h.width <;> simp [Width.reserved, Width.headerSize]

theorem readsBack_fields (h : Header) : ReadsBack (fields h.magic) h h.writeFields := by
  refine (ReadM.readsBack_u32 _ _).bind ?_
  refine (ReadM.readsBack_u32 _ _).bind ?_
  refine (ReadM.readsBack_u32 _ _).bind ?_
  refine (ReadM.readsBack_u32 _ _).bind ?_
  refine (ReadM.readsBack_u32 _ _).bind ?_
  exact (ReadM.readsBack_u32 _ _).bind (ReadM.readsBack_pure h)

/-- A header is read back. -/
theorem read_append (hmagic : h.magic = Magic.of e w) (rest : Bytes) :
    read (h.write ++ rest) = .ok h := by
  have hdata : h.write ++ rest =
      h.magic.write ++ (h.writeFields ++ (h.width.reserved h.endian ++ rest)) := by
    simp only [write, List.append_assoc]
  have hread : Magic.read (h.write ++ rest) = .ok h.magic := by
    have hword := Magic.readsBack e w
    rw [← hmagic] at hword
    exact hword.runAt (hdata.trans (List.nil_append _).symm) rfl
  have hsize : h.magic.width.headerSize ≤ (h.write ++ rest).length := by
    rw [List.length_append, length_write]
    exact Nat.le_add_right _ _
  unfold read
  rw [hread, ok_bind, require_pos hsize, ok_bind]
  exact (readsBack_fields h).runAt hdata (Endian.length_word _ _)

end Header

/-- A walk finds the load commands behind the header, whatever is behind them. -/
theorem Walk.ofImage_write {h : Header} {commands : List LoadCommand} {trailing : Bytes}
    (hcount : h.commandCount.toNat = commands.length)
    (hlow : LoadCommand.totalSize h.width commands ≤ h.commandSize.toNat)
    (hhigh : h.commandSize.toNat ≤ LoadCommand.totalSize h.width commands + trailing.length) :
    ofImage (h.write ++ (commands.flatMap (·.write h.width h.endian) ++ trailing)) h =
      .ok ⟨LoadCommand.raws h.width h.endian h.size commands, none⟩ := by
  have hsize : LoadCommand.totalSize h.width commands < UInt32.size :=
    Nat.lt_of_le_of_lt hlow h.commandSize.toNat_lt_size
  have hcursor : Cursor.of
      (h.write ++ (commands.flatMap (·.write h.width h.endian) ++ trailing)) h.size =
        ⟨h.size, commands.flatMap (·.write h.width h.endian) ++ trailing⟩ := by
    rw [Cursor.of, ← h.length_write, List.drop_left]
  unfold ofImage
  dsimp only
  rw [if_pos, hcursor, hcount,
    LoadCommand.ofCursor_flatMap_write h.endian hsize (by omega) trailing]
  simp only [List.length_append, h.length_write, LoadCommand.length_flatMap_write]
  omega

/-- **An image that is written is read back**, in each byte order and pointer size, whatever follows
the commands and whether or not the header counts it as theirs.  The commands do not depend on the
byte order, but for the bytes of those of an unknown kind. -/
theorem Image.read_write (w : Width) (header : Header) {commands : List LoadCommand}
    {trailing : Bytes} {budget : Budget} (hcommands : ∀ c ∈ commands, c.Fits w)
    (hcount : header.commandCount.toNat = commands.length)
    (hlow : LoadCommand.totalSize w commands ≤ header.commandSize.toNat)
    (hhigh : header.commandSize.toNat ≤ LoadCommand.totalSize w commands + trailing.length)
    (hbudget : commands.length ≤ budget.maxLoadCommands) :
    let headerIn (e : Endian) : Header := { header with magic := Magic.of e w }
    let bytesIn (e : Endian) : Bytes :=
      (headerIn e).write ++ (commands.flatMap (·.write w e) ++ trailing)
    let commandsIn (e : Endian) : List Command := commands.map (·.command w e)
    (∀ e, Image.read (bytesIn e) budget = .ok ⟨bytesIn e, headerIn e, commandsIn e, budget⟩) ∧
      List.Forall₂ Command.Alike (commandsIn .little) (commandsIn .big) := by
  intro headerIn bytesIn commandsIn
  refine ⟨fun e => ?_, LoadCommand.forall₂_alike w _ _ commands⟩
  have hheader : Header.read (bytesIn e) = .ok (headerIn e) :=
    Header.read_append (h := headerIn e) rfl _
  have hmax : (headerIn e).commandCount.toNat ≤ budget.maxLoadCommands := hcount ▸ hbudget
  have hendian : (headerIn e).endian = e := Magic.endian_of e w
  have hwidth : (headerIn e).width = w := Magic.width_of e w
  have hwalk : Walk.ofImage (bytesIn e) (headerIn e) =
      .ok ⟨LoadCommand.raws w e (headerIn e).size commands, none⟩ := by
    rw [← hwidth] at hlow hhigh
    have hfound := Walk.ofImage_write (h := headerIn e) hcount hlow hhigh
    rwa [hwidth, hendian] at hfound
  have hdecode : Walk.decode ⟨LoadCommand.raws w e (headerIn e).size commands, none⟩
      (headerIn e).endian = .ok (commandsIn e) := by
    rw [hendian]
    exact Walk.decode_raws e hcommands _
  unfold Image.read
  rw [hheader, ok_bind, require_pos hmax, ok_bind, hwalk, ok_bind, hdecode]
  rfl

/-- A section whose name takes its whole field. -/
def exampleSection : SectionHeader :=
  ⟨"__sixteen_bytes_", "__DATA", 0x1000, 32, 0, 3, 0, 0, 0, 0, 0⟩

/-- The segment of the section. -/
def exampleSegmentCommand : SegmentCommand :=
  ⟨"__DATA", 0x1000, 32, 0, 32, 7, 3, 1, 0, [exampleSection]⟩

/-- Commands of all kinds with their numbers. -/
def exampleCommands (w : Width) : List (UInt32 × Command) :=
  let info : DyldInfo := ⟨⟨1, 2⟩, ⟨3, 4⟩, ⟨5, 6⟩, ⟨7, 8⟩, ⟨9, 10⟩⟩
  let library (kind : DylibKind) : Command := .dylib ⟨kind, "libc", 2, 1, 1⟩
  let segmentCode : UInt32 :=
    match w with
    | .bits32 => 0x1
    | .bits64 => 0x19
  [(segmentCode, .segment exampleSegmentCommand),
    (0x22, .dyldInfo info), (0x80000022, .dyldInfo info),
    (0xc, library .load), (0x80000018, library .weak), (0x8000001f, library .reexport),
    (0x80000023, library .upward), (0x20, library .lazy), (0xd, library .id),
    (0x2, .symtab 1 2 3 4), (0xb, .dysymtab 1 2 3 4 5 6), (0x1b, .uuid (List.replicate 16 7)),
    (0x80000028, .main 0x10 0x20), (0x8000001c, .rpath "@loader_path")]

/-- These commands with padding, and a command of an unknown kind. -/
def exampleLoadCommands (w : Width) : List LoadCommand :=
  (exampleCommands w).map (fun (code, command) => ⟨code, .fields command, [1, 2, 3]⟩) ++
    [⟨0x1d, .bytes [5, 6, 7, 8], []⟩]

theorem fits_exampleLoadCommands (w : Width) : ∀ c ∈ exampleLoadCommands w, c.Fits w := by
  have hcodes : ∀ entry ∈ exampleCommands w, entry.1 ∈ (entry.2.kind w).codes := by
    cases w <;> decide
  have hfits : ∀ entry ∈ exampleCommands w, entry.2.Fits w := by
    have hname : 0 ∉ Text.Utf8.encode "libc" := by decide
    have hpath : 0 ∉ Text.Utf8.encode "@loader_path" := by decide
    have hsections : ∀ header ∈ [exampleSection], header.Fits w := by
      rw [List.forall_mem_singleton]
      exact ⟨⟨by decide, by decide⟩, ⟨by decide, by decide⟩, by cases w <;> decide,
        by cases w <;> decide⟩
    have hsegment : exampleSegmentCommand.Fits w :=
      ⟨⟨by decide, by decide⟩, by cases w <;> decide, by cases w <;> decide, by cases w <;> decide,
        by cases w <;> decide, rfl, hsections⟩
    simp only [exampleCommands, List.forall_mem_cons, Command.Fits]
    exact ⟨hsegment, trivial, trivial, hname, hname, hname, hname, hname, hname, trivial, trivial,
      List.length_replicate, trivial, hpath, List.forall_mem_nil _⟩
  have hunknown (kind : CommandKind) : 0x1d ∉ kind.codes := by
    cases kind with
    | segment w => cases w <;> decide
    | dylib kind => cases kind <;> decide
    | _ => decide
  rw [exampleLoadCommands, List.forall_mem_append, List.forall_mem_map, List.forall_mem_singleton]
  exact ⟨fun entry hentry => ⟨hcodes entry hentry, hfits entry hentry⟩, hunknown⟩

/-- All these commands are read back, from an image of each pointer size, and so are the bytes of
the command of an unknown kind, in the byte order of the image. -/
theorem Image.read_write_all_kinds :
    let header (e : Endian) (w : Width) : Header := ⟨Magic.of e w, 7, 3, 6, 15, 620, 0x85⟩
    let trailing : Bytes := List.replicate 60 9
    let bytes (e : Endian) (w : Width) : Bytes :=
      (header e w).write ++ ((exampleLoadCommands w).flatMap (·.write w e) ++ trailing)
    (∀ w, ∀ c ∈ exampleLoadCommands w, c.Fits w) ∧
      (∀ w, LoadCommand.totalSize w (exampleLoadCommands w) ≤ 620 ∧
        620 ≤ LoadCommand.totalSize w (exampleLoadCommands w) + trailing.length) ∧
      Image.read (bytes .big .bits32) {} = .ok ⟨bytes .big .bits32, header .big .bits32,
        (exampleCommands .bits32).map Prod.snd ++
          [.other 0x1d [0, 0, 0, 0x1d, 0, 0, 0, 12, 5, 6, 7, 8]], {}⟩ ∧
      Image.read (bytes .little .bits64) {} = .ok ⟨bytes .little .bits64, header .little .bits64,
        (exampleCommands .bits64).map Prod.snd ++
          [.other 0x1d [0x1d, 0, 0, 0, 12, 0, 0, 0, 5, 6, 7, 8]], {}⟩ := by
  intro header trailing bytes
  have hsize (w : Width) : LoadCommand.totalSize w (exampleLoadCommands w) ≤ 620 ∧
      620 ≤ LoadCommand.totalSize w (exampleLoadCommands w) + trailing.length := by
    cases w <;> decide +kernel
  have hcount (e : Endian) (w : Width) :
      (header e w).commandCount.toNat = (exampleLoadCommands w).length := by
    cases w <;> rfl
  have hbudget (w : Width) : (exampleLoadCommands w).length ≤ ({} : Budget).maxLoadCommands := by
    cases w <;> decide
  have hread (e : Endian) (w : Width) := (Image.read_write w (header e w)
    (fits_exampleLoadCommands w) (hcount e w) (hsize w).1 (hsize w).2 (hbudget w)).1 e
  exact ⟨fits_exampleLoadCommands, hsize, hread .big .bits32, hread .little .bits64⟩

end MachO
