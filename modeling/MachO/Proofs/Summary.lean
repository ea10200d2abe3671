import MachO.Proofs.Actions
import MachO.Proofs.Image
import MachO.Proofs.Stream.Drain
import MachO.Summary

/-!
# What a summary tells

The summary of an image tells of each stream what drawing all its items tells, as if there were no
other stream.

* `StreamSummary.text`, `StreamSummary.Counts`: the wording of a failure, and what drawing items
  tells;
* `StreamSummary.Reports`: the summary of a stream whose bytes are a part of an image;
* `ImageSummary.segmentText`: the wording of what is wrong with the segments;
* `Image.details`: what is told of an image apart from its streams and its address space;
* `ImageSummary.read_reports`: an image that is read has a summary, and its parts are as they should
  be, whichever of the streams fail.
-/

namespace MachO

namespace StreamSummary

/-- The wording of the failure. -/
def text (summary : StreamSummary) : Option String := summary.error.map (·.message)

/-- The number of values among items in front of the first failure, and the wording of that
failure. -/
structure Counts {α : Type} (summary : StreamSummary) (items : List (Except DecodeError α)) :
    Prop where
  count_eq : summary.count = (items.takeWhile (·.isOk)).length
  text_eq : summary.text = (Source.firstFailure? items).map (·.message)

/-- The summary of a stream whose bytes are a part of an image.  An empty part may be anywhere, and
the items of any other are those of the bytes that it holds; when some of them are not there, only
this failure is told. -/
structure Reports {α : Type} (summary : StreamSummary) (data : Bytes) (part : Extent)
    (items : Bytes → List (Except DecodeError α)) : Prop where
  of_empty : part.size = 0 → summary.Counts (items [])
  of_inside : ∀ bytes, part.size ≠ 0 →
    data.slice? part.offset.toNat part.size.toNat = some bytes → summary.Counts (items bytes)
  of_outside : part.size ≠ 0 → data.length < part.offset.toNat + part.size.toNat →
    summary.count = 0 ∧
      summary.text = some (DecodeError.truncated part.offset.toNat part.size.toNat).message

variable {σ α : Type} [Source σ α]

theorem ofSource_ok (s : σ) :
    ofSource (.ok s) = ⟨(Source.Tally.ofItems (Source.toList s)).count,
      (Source.Tally.ofItems (Source.toList s)).error.map .malformed⟩ := by
  rw [ofSource, Source.tally_eq]

theorem counts_ofSource (s : σ) : (ofSource (.ok s)).Counts (Source.toList s) := by
  rw [ofSource_ok]
  refine ⟨rfl, ?_⟩
  unfold text
  rw [Option.map_map]
  rfl

/-- Streams with the same items have the same summary. -/
theorem ofSource_congr {s t : σ} (h : Source.toList s = Source.toList t) :
    ofSource (.ok s) = ofSource (.ok t) := by
  rw [ofSource_ok, ofSource_ok, h]

/-- **The summary of a stream is that of its own bytes.** -/
theorem reports_ofSource (image : Image) (part : Extent) (stream : Bytes → σ) :
    (ofSource (do return stream (← image.extent part))).Reports image.data part
      fun bytes => Source.toList (stream bytes) where
  of_empty hempty := by
    rw [Image.extent, if_pos hempty]
    exact counts_ofSource (stream [])
  of_inside bytes hsize hbytes := by
    rw [Image.extent, if_neg hsize, hbytes]
    exact counts_ofSource (stream bytes)
  of_outside hsize hlt := by
    rw [Image.extent, if_neg hsize, Bytes.slice?, if_neg (Nat.not_le.2 hlt)]
    exact ⟨rfl, rfl⟩

end StreamSummary

namespace Image

/-- What is told of an image apart from its streams and its address space. -/
def details (image : Image) : ImageSummary where
  cpu := image.header.cpu
  fileType := image.header.fileType
  width := image.header.width
  endian := image.header.endian
  commandCount := image.commands.length
  uuid := image.uuid?.map Text.uuid
  installName := image.installName?
  dylibs := image.dylibs.map (·.name)
  rpaths := image.rpaths
  segments := image.segmentCommands.map (·.summary)
  segmentError := none
  exports := ⟨0, none⟩
  binds := ⟨0, none⟩
  lazyBinds := ⟨0, none⟩
  weakBinds := ⟨0, none⟩
  rebases := ⟨0, none⟩

variable {σ α : Type} [Source σ α] {image : Image} {space : AddressSpace}
  {failure : AddressSpace.BuildFailure}

theorem actionSummary_of_ok (h : image.addressSpace = .ok space)
    (stream : AddressSpace → Except DecodeError σ) :
    image.actionSummary stream = StreamSummary.ofSource (stream space) := by
  rw [actionSummary, h]

theorem actionSummary_of_error (h : image.addressSpace = .error failure)
    (stream : AddressSpace → Except DecodeError σ) :
    image.actionSummary stream = .failed .noSegments := by
  rw [actionSummary, h]

theorem data_of_read {data : Bytes} {budget : Budget} (h : read data budget = .ok image) :
    image.data = data ∧ image.budget = budget := by
  obtain ⟨header, -, h⟩ := bind_eq_ok.1 h
  obtain ⟨_, -, h⟩ := bind_eq_ok.1 h
  obtain ⟨walk, -, h⟩ := bind_eq_ok.1 h
  obtain ⟨commands, -, ⟨⟩⟩ := bind_eq_ok.1 h
  exact ⟨rfl, rfl⟩

end Image

namespace ImageSummary

/-- The wording of what is wrong with the segments. -/
def segmentText (summary : ImageSummary) : Option String := summary.segmentError.map (·.message)

/-- The summary of a bind stream. -/
def bindsOf (summary : ImageSummary) : Bind.StreamKind → StreamSummary
  | .normal => summary.binds
  | .lazy => summary.lazyBinds
  | .weak => summary.weakBinds

theorem bindsOf_summary (image : Image) (kind : Bind.StreamKind) :
    image.summary.bindsOf kind = image.actionSummary fun space => image.binds space kind := by
  cases kind <;> rfl

/-- The summary with the streams of another one. -/
def withStreamsOf (summary other : ImageSummary) : ImageSummary :=
  { summary with
    exports := other.exports
    binds := other.binds
    lazyBinds := other.lazyBinds
    weakBinds := other.weakBinds
    rebases := other.rebases }

variable {data : Bytes} {budget : Budget}

theorem read_eq_error_iff {e : DecodeError} :
    ImageSummary.read data budget = .error e ↔ Image.read data budget = .error e := by
  unfold ImageSummary.read
  cases Image.read data budget <;> simp [bind, Except.bind, pure, Except.pure]

theorem read_of_ok {image : Image} (h : Image.read data budget = .ok image) :
    ImageSummary.read data budget = .ok image.summary := by
  rw [ImageSummary.read, h]
  rfl

/-- **Each stream is summarized on its own.**  Whatever is wrong with the streams or the segments of an
image, it has a summary if it can be read.  The summary of a stream tells just of the items in its
own bytes, and only for the streams of actions it makes a difference whether there is an address
space. -/
theorem read_reports (data : Bytes) (budget : Budget) :
    (∀ e, ImageSummary.read data budget = .error e ↔ Image.read data budget = .error e) ∧
    ∀ image, Image.read data budget = .ok image → ∃ summary,
      ImageSummary.read data budget = .ok summary ∧
      summary = { image.details.withStreamsOf summary with segmentError := summary.segmentError } ∧
      let info := image.dyldInfo?.getD default
      summary.exports.Reports data info.exports
        (fun bytes => Source.toList (Export.trie bytes budget.maxTrieDepth)) ∧
      (∀ space, image.addressSpace = .ok space →
        summary.segmentError = none ∧ summary.segmentText = none ∧
        (∀ kind, (summary.bindsOf kind).Reports data (info.bindExtent kind) fun bytes =>
          Source.toList (Bind.stream kind bytes ⟨space, some (data, image.header.endian)⟩
            (some budget.maxActions))) ∧
        summary.rebases.Reports data info.rebase fun bytes =>
          Source.toList (Rebase.stream bytes space (some budget.maxActions))) ∧
      ∀ failure, image.addressSpace = .error failure →
        summary.segmentError = some failure.error ∧
        summary.segmentText = some failure.error.message ∧
        (∀ kind, (summary.bindsOf kind).count = 0 ∧
          (summary.bindsOf kind).text = some "no valid segments") ∧
        summary.rebases.count = 0 ∧ summary.rebases.text = some "no valid segments" := by
  refine ⟨fun e => read_eq_error_iff, fun image himage => ?_⟩
  obtain ⟨rfl, rfl⟩ := Image.data_of_read himage
  refine ⟨image.summary, read_of_ok himage, rfl, ?_, fun space hspace => ?_, fun failure hspace => ?_⟩
  · exact StreamSummary.reports_ofSource image _ fun bytes =>
      Export.trie bytes image.budget.maxTrieDepth
  · have hnone : image.summary.segmentError = none := by
      show image.segmentError? = none
      rw [Image.segmentError?, hspace]
    refine ⟨hnone, ?_, fun kind => ?_, ?_⟩
    · rw [segmentText, hnone, Option.map_none]
    · rw [bindsOf_summary, Image.actionSummary_of_ok hspace]
      exact StreamSummary.reports_ofSource image _ fun bytes => Bind.stream kind bytes _ _
    · show (image.actionSummary image.rebases).Reports _ _ _
      rw [Image.actionSummary_of_ok hspace]
      exact StreamSummary.reports_ofSource image _ fun bytes => Rebase.stream bytes space _
  · have hsome : image.summary.segmentError = some failure.error := by
      show image.segmentError? = some failure.error
      rw [Image.segmentError?, hspace]
    refine ⟨hsome, ?_, fun kind => ?_, ?_⟩
    · rw [segmentText, hsome, Option.map_some]
    · rw [bindsOf_summary, Image.actionSummary_of_error hspace]
      exact ⟨rfl, rfl⟩
    · show (image.actionSummary image.rebases).count = 0 ∧ (image.actionSummary image.rebases).text = _
      rw [Image.actionSummary_of_error hspace]
      exact ⟨rfl, rfl⟩

/-- An image with one segment, of which `fileSize` bytes are to be in the file, and with one bind that
no DONE follows.  The rebase stream is to be where the image has no bytes. -/
def exampleImage (fileSize : UInt64) (trailing : Bytes) : Image :=
  let header : Header := ⟨Magic.of .little .bits32, 7, 3, 6, 2, 104, 0⟩
  let segment : SegmentCommand := { exampleCommand with fileSize }
  let info : DyldInfo := ⟨⟨200, 4⟩, ⟨132, 9⟩, ⟨0, 0⟩, ⟨0, 0⟩, ⟨141, 2⟩⟩
  let commands : List LoadCommand :=
    [⟨0x1, .fields (.segment segment), []⟩, ⟨0x22, .fields (.dyldInfo info), []⟩]
  { data := header.write ++ (commands.flatMap (·.write .bits32 .little) ++
      ([0x11, 0x40, 95, 97, 0, 0x51, 0x70, 8, 0x90, 0, 0] ++ trailing))
    header
    commands := [.segment segment, .dyldInfo info]
    budget := {} }

/-- The streams of an image fail in different ways.  With a segment that is malformed, only the
summaries of the streams of actions are others. -/
theorem read_reports_two :
    let image := exampleImage 32 []
    let image' := exampleImage 200 []
    let space : AddressSpace := { exampleSpace with width := .bits32 }
    let failure : AddressSpace.BuildFailure :=
      ⟨⟨.bits32, []⟩, .badSegment 0 .fileLargerThanMemory⟩
    Image.read image.data {} = .ok image ∧ Image.read image'.data {} = .ok image' ∧
      image.addressSpace = .ok space ∧ image'.addressSpace = .error failure ∧
      ∃ summary summary', ImageSummary.read image.data {} = .ok summary ∧
        ImageSummary.read image'.data {} = .ok summary' ∧
        summary.binds.count = 1 ∧ summary.binds.text = some (DecodeError.missingDone 9).message ∧
        summary.rebases.count = 0 ∧
        summary.rebases.text = some (DecodeError.truncated 200 4).message ∧
        summary'.segmentError = some failure.error ∧
        summary'.segmentText =
          some "Invalid segment 0: file size exceeds memory size" ∧ summary'.binds.count = 0 ∧
        summary'.binds.text = some "no valid segments" ∧
        summary.exports.text = none ∧ summary'.exports.text = none := by
  intro image image' space failure
  have hread : Image.read image.data {} = .ok image := by decide +kernel
  have hread' : Image.read image'.data {} = .ok image' := by decide +kernel
  have hspace : image.addressSpace = .ok space := by decide +kernel
  have hspace' : image'.addressSpace = .error failure := by decide +kernel
  obtain ⟨summary, hsummary, -, hexports, hgood, -⟩ := (read_reports image.data {}).2 image hread
  obtain ⟨summary', hsummary', -, hexports', -, hbad⟩ :=
    (read_reports image'.data {}).2 image' hread'
  obtain ⟨-, -, hbinds, hrebases⟩ := hgood space hspace
  obtain ⟨herror, htext, hnone, -⟩ := hbad failure hspace'
  have hitems : Source.toList (Bind.stream .normal [0x11, 0x40, 95, 97, 0, 0x51, 0x70, 8, 0x90]
      ⟨space, some (image.data, image.header.endian)⟩ (some ({} : Budget).maxActions)) =
        [.ok ⟨0, 8, 0x1008, "_a", 1, .pointer, 0, 0, 8⟩, .error (.missingDone 9)] := by
    decide +kernel
  have hbind := (hbinds .normal).of_inside [0x11, 0x40, 95, 97, 0, 0x51, 0x70, 8, 0x90] (by decide)
    (by decide +kernel)
  rw [hitems] at hbind
  have hnoSymbol : Source.toList (Export.trie [0, 0] ({} : Budget).maxTrieDepth) = [] := by
    decide +kernel
  have hexport := hexports.of_inside [0, 0] (by decide) (by decide +kernel)
  have hexport' := hexports'.of_inside [0, 0] (by decide) (by decide +kernel)
  rw [hnoSymbol] at hexport hexport'
  have hrebase := hrebases.of_outside (by decide) (by decide +kernel)
  exact ⟨hread, hread', hspace, hspace', summary, summary', hsummary, hsummary', hbind.count_eq,
    hbind.text_eq, hrebase.1, hrebase.2, herror, htext, (hnone .normal).1, (hnone .normal).2,
    hexport.text_eq, hexport'.text_eq⟩

end ImageSummary

end MachO
