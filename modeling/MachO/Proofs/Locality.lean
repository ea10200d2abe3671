import MachO.Proofs.Command.Region
import MachO.Proofs.Opcode.Begun
import MachO.Proofs.Summary

/-!
# What a summary depends on

An image may hold anything in bytes that nobody looks at.

* `Header.reach`, `Header.read_congr`: the header and the load commands of an image;
* `Image.read_congr`: an image is read from these bytes only;
* `Bind.toList_stream_congr`: a bind stream looks into the image only to follow a chain;
* `ImageSummary.read_local`: images that agree on the bytes of a stream have the same summary of it.
-/

namespace MachO

open ReadM (bind_of_ok bind_of_error)

/-! ### Headers -/

section

variable {a b : Bytes}

theorem Magic.read_congr (hlength : a.length = b.length) (h : Bytes.AgreeOn ⟨0, 4⟩ a b) :
    Magic.read b = Magic.read a := by
  by_cases hfour : 4 ≤ a.length
  · have hword {data : Bytes} (hle : 4 ≤ data.length) : ReadM.u32 .little (Cursor.of data 0) =
        .ok (Endian.little.wordAt data 0) (Cursor.of data 4) :=
      (ReadM.readsField_u32 .little).eq_ok (by omega)
    unfold Magic.read ReadM.runAt Magic.reader
    rw [bind_of_ok (hword hfour), bind_of_ok (hword (hlength ▸ hfour)),
      h.wordAt_eq (Nat.le_refl 0) (Nat.le_refl _)]
    cases Magic.ofWord? (Endian.little.wordAt b 0) <;> rfl
  · rw [h.eq hlength (by omega)]

/-- The header with a magic number whose other fields stand at a position. -/
def Header.at (magic : Magic) (data : Bytes) (pos : Nat) : Header where
  magic
  cpuCode := magic.endian.wordAt data pos
  cpuSubtype := magic.endian.wordAt data (pos + 4)
  fileCode := magic.endian.wordAt data (pos + 8)
  commandCount := magic.endian.wordAt data (pos + 12)
  commandSize := magic.endian.wordAt data (pos + 16)
  flags := magic.endian.wordAt data (pos + 20)

namespace Header

theorem readsField_fields (magic : Magic) :
    ReadM.ReadsField (fields magic) 24 (Header.at magic) := by
  have hword := ReadM.readsField_u32 magic.endian
  exact (hword.bind fun cpuCode => hword.bind fun cpuSubtype => hword.bind fun fileCode =>
    hword.bind fun commandCount => hword.bind fun commandSize => hword.map fun flags =>
      Header.mk magic cpuCode cpuSubtype fileCode commandCount commandSize flags).congr rfl
        fun data pos => rfl

theorem at_congr {magic : Magic} {pos : Nat} (h : Bytes.AgreeOn ⟨pos, 24⟩ a b) :
    Header.at magic b pos = Header.at magic a pos := by
  have hword {start : Nat} (hstart : pos ≤ start) (hstop : start + 4 ≤ pos + 24) :
      magic.endian.wordAt b start = magic.endian.wordAt a start :=
    (h.wordAt_eq hstart hstop magic.endian).symm
  unfold Header.at
  congr 1
  all_goals exact hword (by omega) (by omega)

/-- The number of bytes at the start of an image that its header and its load commands take.
Without a header only the magic number counts. -/
def reach (data : Bytes) : Nat :=
  match read data with
  | .ok header => header.size + header.commandSize.toNat
  | .error _ => 4

/-- What a header is read from, when the magic number is known. -/
theorem read_eq {data : Bytes} {magic : Magic} (h : Magic.read data = .ok magic) :
    read data =
      if magic.width.headerSize ≤ data.length then .ok (Header.at magic data 4)
      else .error (.truncated 0 magic.width.headerSize) := by
  unfold read
  rw [h, ok_bind]
  split
  · rename_i hsize
    have hfields : 4 + 24 ≤ data.length :=
      Nat.le_trans (by cases magic.width <;> decide) hsize
    rw [require_pos hsize, ok_bind, ReadM.runAt, (readsField_fields magic).eq_ok hfields]
  · rename_i hsize
    rw [require_neg hsize, error_bind]

theorem size_le_reach {header : Header} (h : read a = .ok header) : header.size ≤ reach a := by
  unfold reach
  rw [h]
  exact Nat.le_add_right _ _

theorem four_le_reach (data : Bytes) : 4 ≤ reach data := by
  unfold reach
  split
  · rename_i header _
    have hsize : 4 ≤ header.size := by
      unfold size
      cases header.width <;> decide
    exact Nat.le_trans hsize (Nat.le_add_right _ _)
  · exact Nat.le_refl 4

/-- A header depends on no byte behind the load commands. -/
theorem read_congr (hlength : a.length = b.length) (h : Bytes.AgreeOn ⟨0, reach a⟩ a b) :
    read b = read a := by
  have hmagic : Magic.read b = Magic.read a :=
    Magic.read_congr hlength (h.part (Nat.le_refl 0) (Nat.add_le_add_left (four_le_reach a) 0))
  cases hread : Magic.read a with
  | error e =>
    unfold read
    rw [hmagic, hread, error_bind, error_bind]
  | ok magic =>
    rw [read_eq hread, read_eq (hmagic.trans hread), hlength]
    split
    · rename_i hsize
      have hheader : read a = .ok (Header.at magic a 4) :=
        (read_eq hread).trans (if_pos (hlength ▸ hsize))
      have hreach : 4 + 24 ≤ reach a :=
        Nat.le_trans (by show 28 ≤ magic.width.headerSize; cases magic.width <;> decide)
          (size_le_reach hheader)
      exact congrArg Except.ok (at_congr (h.part (Nat.zero_le 4) (by omega)))
    · rfl

end Header

end

/-! ### Images -/

/-- The positions of a part of an image. -/
def Extent.range (e : Extent) : ByteRange := ⟨e.offset.toNat, e.size.toNat⟩

namespace Image

variable {a b : Bytes} {budget : Budget}

/-- The image with other bytes, whose header and load commands are the same. -/
def onBytes (image : Image) (data : Bytes) : Image := { image with data }

/-- **An image is read from its header and its load commands**, whatever its other bytes are. -/
theorem read_congr (hlength : a.length = b.length) (h : Bytes.AgreeOn ⟨0, Header.reach a⟩ a b) :
    read b budget = (read a budget).map (onBytes · b) := by
  unfold read
  rw [Header.read_congr hlength h]
  cases hheader : Header.read a with
  | error e => rfl
  | ok header =>
    have hwalk : Walk.ofImage b header = Walk.ofImage a header := by
      apply Walk.ofImage_congr hlength
      rwa [Header.reach, hheader] at h
    rw [ok_bind, ok_bind, hwalk]
    by_cases hcount : header.commandCount.toNat ≤ budget.maxLoadCommands
    · rw [require_pos hcount, ok_bind, ok_bind]
      cases Walk.ofImage a header with
      | error e => rfl
      | ok walk =>
        rw [ok_bind, ok_bind]
        cases walk.decode header.endian <;> rfl
    · rw [require_neg hcount]
      rfl

variable {image : Image}

theorem extent_onBytes {e : Extent} (hlength : image.data.length = b.length)
    (h : Bytes.AgreeOn e.range image.data b) : (image.onBytes b).extent e = image.extent e := by
  unfold extent
  rw [show (image.onBytes b).data = b from rfl, Bytes.AgreeOn.slice?_eq h hlength]

theorem addressSpace_onBytes (hlength : image.data.length = b.length) :
    (image.onBytes b).addressSpace = image.addressSpace := by
  unfold addressSpace
  rw [show (image.onBytes b).data = b from rfl, ← hlength]
  rfl

end Image

/-! ### Bind streams -/

namespace Bind

/-- No chain is suspended. -/
def State.NoChain (s : State) : Prop := ∀ position, s.pending ≠ .chain position

theorem State.noChain_of (s : State) (run : Option Run) (r : Registers) : (s.of run r).NoChain := by
  intro position
  cases run <;> exact nofun

/-- **Only chains are looked up in the image.** -/
theorem alike (space : AddressSpace) (image image' : Option (Bytes × Endian)) :
    Opcode.Alike (⟨space, image⟩ : Context) ⟨space, image'⟩ State.NoChain (· ≠ .followChain) where
  resume s hs := by
    show resume _ s = resume _ s ∧ (resume _ s).Keeps _ _
    unfold resume
    cases hpending : s.pending with
    | nothing => exact ⟨rfl, hs⟩
    | run run => exact ⟨rfl, Run.next_keeps (fun _ _ => trivial) fun _ _ r' _ => s.noChain_of _ r'⟩
    | chain position => exact absurd hpending (hs position)
  act position op s hop hs := by
    have hof := s.noChain_of
    have hemit {delta : Nat} : (emitThenAdvance space (s.of none) (actionAt space position) delta
        position s.registers).Keeps State.NoChain fun _ _ => True :=
      emitThenAdvance_keeps (fun _ _ => trivial) fun _ r' _ => hof none r'
    show act _ position op s = act _ position op s ∧ (act _ position op s).Keeps _ _
    cases op with
    | setOrdinal ordinal => exact ⟨rfl, hs⟩
    | setSymbol symbol flags => exact ⟨rfl, hs⟩
    | setKind kind => exact ⟨rfl, hs⟩
    | setAddend addend => exact ⟨rfl, hs⟩
    | setSegment index offset => exact ⟨rfl, Effect.ofUpdate_keeps fun _ r' _ => hof none r'⟩
    | advance delta => exact ⟨rfl, Effect.ofUpdate_keeps fun _ r' _ => hof none r'⟩
    | emit =>
      refine ⟨rfl, ?_⟩
      unfold act
      dsimp only
      -- With a table, the opcode adds to the table and emits nothing.
      split
      · exact hemit
      · split
        · exact hs
        · trivial
    | emitThenAdvance delta => exact ⟨rfl, hemit⟩
    | emitThenAdvanceScaled count => exact ⟨rfl, hemit⟩
    | emitTimesSkipping count skip =>
      exact ⟨rfl, Run.start_keeps (fun _ _ _ => trivial) (fun _ _ _ r' _ => hof _ r') (hof none _)⟩
    | startTable size => exact ⟨rfl, hs⟩
    | followChain => exact absurd rfl hop

/-- A bind stream that follows no chain has the same items with any bytes of the image. -/
theorem toList_stream_congr {kind : StreamKind} {bytes : Bytes} {space : AddressSpace}
    {image : Option (Bytes × Endian)} {limit : Option Nat}
    (h : ∀ position, (position, Op.followChain) ∉ (stream kind bytes ⟨space, image⟩ limit).begun)
    (image' : Option (Bytes × Endian)) :
    Source.toList (stream kind bytes ⟨space, image'⟩ limit) =
      Source.toList (stream kind bytes ⟨space, image⟩ limit) := by
  refine OpcodeStream.toList_congr_of_begun (stream kind bytes ⟨space, image⟩ limit)
    (alike space image image') (fun _ => nofun) ?_
  rintro ⟨position, op⟩ hmem rfl
  exact h position hmem

end Bind

/-! ### Summaries -/

namespace Image

variable {image : Image} {b : Bytes} {space : AddressSpace}

/-- A bind stream of the image follows a chain. -/
def FollowsChain (image : Image) (kind : Bind.StreamKind) : Prop :=
  ∃ space stream position, image.addressSpace = .ok space ∧ image.binds space kind = .ok stream ∧
    (position, Bind.Op.followChain) ∈ stream.begun

theorem exports_onBytes (hlength : image.data.length = b.length)
    (h : Bytes.AgreeOn (image.dyldInfo?.getD default).exports.range image.data b) :
    (image.onBytes b).exports = image.exports := by
  unfold exports exportData
  exact congrArg (· >>= _) (extent_onBytes hlength h)

theorem rebases_onBytes (hlength : image.data.length = b.length)
    (h : Bytes.AgreeOn (image.dyldInfo?.getD default).rebase.range image.data b) :
    (image.onBytes b).rebases = image.rebases := by
  funext space
  unfold rebases rebaseData
  exact congrArg (· >>= _) (extent_onBytes hlength h)

theorem actionSummary_onBytes {σ α : Type} [Source σ α] (hlength : image.data.length = b.length)
    {stream stream' : AddressSpace → Except DecodeError σ}
    (h : ∀ space, image.addressSpace = .ok space →
      StreamSummary.ofSource (stream' space) = StreamSummary.ofSource (stream space)) :
    (image.onBytes b).actionSummary stream' = image.actionSummary stream := by
  have hspace : (image.onBytes b).addressSpace = image.addressSpace := addressSpace_onBytes hlength
  cases hbuild : image.addressSpace with
  | error failure =>
    rw [actionSummary_of_error (hspace.trans hbuild), actionSummary_of_error hbuild]
  | ok space =>
    rw [actionSummary_of_ok (hspace.trans hbuild), actionSummary_of_ok hbuild, h space hbuild]

theorem ofSource_binds_onBytes {kind : Bind.StreamKind} (hlength : image.data.length = b.length)
    (h : Bytes.AgreeOn ((image.dyldInfo?.getD default).bindExtent kind).range image.data b)
    (hchain : ¬image.FollowsChain kind) (hspace : image.addressSpace = .ok space) :
    StreamSummary.ofSource ((image.onBytes b).binds space kind) =
      StreamSummary.ofSource (image.binds space kind) := by
  have hbytes : (image.onBytes b).bindData kind = image.bindData kind := extent_onBytes hlength h
  have hbinds : image.binds space kind = image.bindData kind >>= _ := rfl
  have hbinds' : (image.onBytes b).binds space kind = (image.onBytes b).bindData kind >>= _ := rfl
  rw [hbytes] at hbinds'
  cases hdata : image.bindData kind with
  | error e => rw [hbinds, hbinds', hdata, error_bind, error_bind]
  | ok bytes =>
    rw [hdata] at hbinds hbinds'
    rw [hbinds, hbinds']
    refine StreamSummary.ofSource_congr (Bind.toList_stream_congr (fun position hmem => ?_) _)
    exact hchain ⟨space, _, position, hspace, hbinds, hmem⟩

end Image

namespace ImageSummary

/-- **A summary depends on the header, the load commands and the bytes of the streams.**  Images of
one length with the same header and load commands are read alike, and have the same summary but for
the streams.  A stream whose bytes are the same has the same summary, unless it is a bind stream that
follows a chain. -/
theorem read_local (a b : Bytes) (budget : Budget) (hlength : a.length = b.length)
    (h : Bytes.AgreeOn ⟨0, Header.reach a⟩ a b) :
    ((∃ image, Image.read a budget = .ok image) ↔ ∃ image, Image.read b budget = .ok image) ∧
    (∀ e, Image.read a budget = .error e ↔ Image.read b budget = .error e) ∧
    ∀ image, Image.read a budget = .ok image → ∃ summary summary',
      ImageSummary.read a budget = .ok summary ∧ ImageSummary.read b budget = .ok summary' ∧
      summary' = summary.withStreamsOf summary' ∧
      let info := image.dyldInfo?.getD default
      (Bytes.AgreeOn info.exports.range a b → summary'.exports = summary.exports) ∧
      (Bytes.AgreeOn info.rebase.range a b → summary'.rebases = summary.rebases) ∧
      ∀ kind, Bytes.AgreeOn (info.bindExtent kind).range a b → ¬image.FollowsChain kind →
        summary'.bindsOf kind = summary.bindsOf kind := by
  have hread : Image.read b budget = (Image.read a budget).map (Image.onBytes · b) :=
    Image.read_congr hlength h
  rw [hread]
  refine ⟨?_, fun e => ?_, fun image himage => ?_⟩
  · cases Image.read a budget <;> simp [Except.map]
  · cases Image.read a budget <;> simp [Except.map]
  · rw [himage] at hread
    obtain ⟨rfl, -⟩ := Image.data_of_read himage
    refine ⟨image.summary, (image.onBytes b).summary, read_of_ok himage, read_of_ok hread, ?_,
      fun hexports => ?_, fun hrebase => ?_, fun kind hbind hchain => ?_⟩
    · -- Apart from its streams, a summary looks at the header, the load commands and the length.
      have herror : (image.onBytes b).segmentError? = image.segmentError? := by
        unfold Image.segmentError?
        rw [Image.addressSpace_onBytes hlength]
      show (image.onBytes b).summary = { image.summary.withStreamsOf (image.onBytes b).summary with
        segmentError := image.segmentError? }
      rw [← herror]
      rfl
    · exact congrArg StreamSummary.ofSource (Image.exports_onBytes hlength hexports)
    · apply Image.actionSummary_onBytes hlength
      intro space _
      rw [Image.rebases_onBytes hlength hrebase]
    · rw [bindsOf_summary, bindsOf_summary]
      apply Image.actionSummary_onBytes hlength
      intro space hspace
      exact Image.ofSource_binds_onBytes hlength hbind hchain hspace

/-- Two images that differ in a byte behind all their streams. -/
theorem read_local_example :
    let image := exampleImage 32 [1]
    let image' := exampleImage 32 [2]
    image.data ≠ image'.data ∧ image.data.length = image'.data.length ∧
      Bytes.AgreeOn ⟨0, Header.reach image.data⟩ image.data image'.data ∧
      Bytes.AgreeOn ⟨132, 9⟩ image.data image'.data ∧ ¬image.FollowsChain .normal ∧
      ∃ summary summary', ImageSummary.read image.data {} = .ok summary ∧
        ImageSummary.read image'.data {} = .ok summary' ∧
        summary' = summary.withStreamsOf summary' ∧ summary'.exports = summary.exports ∧
        summary'.rebases = summary.rebases ∧ summary'.binds = summary.binds := by
  intro image image'
  let space : AddressSpace := { exampleSpace with width := .bits32 }
  let bytes : Bytes := [0x11, 0x40, 95, 97, 0, 0x51, 0x70, 8, 0x90]
  have hlength : image.data.length = image'.data.length := by decide +kernel
  have hagree : Bytes.AgreeOn ⟨0, Header.reach image.data⟩ image.data image'.data := by
    decide +kernel
  have hbind : Bytes.AgreeOn ⟨132, 9⟩ image.data image'.data := by decide +kernel
  have hread : Image.read image.data {} = .ok image := by decide +kernel
  have hspace : image.addressSpace = .ok space := by decide +kernel
  have hdata : image.bindData .normal = .ok bytes := by decide +kernel
  have hcode : ∀ x ∈ (Program.ofBytes Bind.opcodes .required bytes).code,
      x.2 ≠ Bind.Op.followChain := by
    decide +kernel
  have hchain : ¬image.FollowsChain .normal := by
    rintro ⟨_, _, position, hspace', hstream, hmem⟩
    cases hspace.symm.trans hspace'
    rw [Image.binds, hdata] at hstream
    cases hstream
    exact hcode _ ((OpcodeStream.begun_isPrefix _).subset hmem) rfl
  obtain ⟨-, -, hsummary⟩ := read_local image.data image'.data {} hlength hagree
  obtain ⟨summary, summary', hfirst, hsecond, hsame, hexports, hrebase, hbinds⟩ :=
    hsummary image hread
  exact ⟨by decide +kernel, hlength, hagree, hbind, hchain, summary, summary', hfirst, hsecond, hsame,
    hexports (by decide +kernel), hrebase (by decide +kernel), hbinds .normal hbind hchain⟩

end ImageSummary

end MachO
