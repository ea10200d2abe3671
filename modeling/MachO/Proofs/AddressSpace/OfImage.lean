import MachO.Proofs.Image

/-!
# Two ways to the address space of an image

The address space of an image can be built from all of its load commands, or from its header and the
segment commands alone, while the others are skipped.

* `Walk.decode_eq_ok_iff`: when all load commands of a walk are decoded;
* `Walk.segments_of_decode`: the segments are then the same, whether others are skipped or not;
* `AddressSpace.Unreadable`: what stops the walk over the segment commands;
* `AddressSpace.ofImage_agrees`: the two ways agree.
-/

namespace MachO

/-! ### Decoding one load command -/

/-- Every value that is read has a property. -/
def ReadM.Ensures {α : Type} (P : α → Prop) (r : ReadM α) : Prop :=
  ∀ ⦃c a c'⦄, r c = .ok a c' → P a

theorem ReadM.Ensures.pure {α : Type} {P : α → Prop} {a : α} (h : P a) :
    Ensures P (pure a : ReadM α) := by
  intro c b c' hread
  cases hread
  exact h

/-- Only the last reader has to be looked at. -/
theorem ReadM.Ensures.bind {α β : Type} {P : β → Prop} {r : ReadM α} {f : α → ReadM β}
    (h : ∀ a, Ensures P (f a)) : Ensures P (r >>= f) := by
  intro c b c' hread
  obtain ⟨a, c₁, -, hread⟩ := bind_eq_ok_iff.1 hread
  exact h a hread

namespace RawCommand

/-- The fields of the segment commands, and of no others, make a segment. -/
theorem ensures_fields (raw : RawCommand) (e : Endian) :
    (raw.fields e).Ensures fun command => command.segment?.isSome = raw.isSegment := by
  unfold fields isSegment
  cases raw.kind with
  | segment w => exact .bind fun _ => .pure rfl
  | symtab => exact .bind fun _ => .bind fun _ => .bind fun _ => .bind fun _ => .pure rfl
  | dysymtab =>
    exact .bind fun _ => .bind fun _ => .bind fun _ => .bind fun _ => .bind fun _ => .bind fun _ =>
      .pure rfl
  | dylib kind => exact .bind fun _ => .pure rfl
  | uuid => exact .bind fun _ => .pure rfl
  | rpath => exact .bind fun _ => .pure rfl
  | dyldInfo => exact .bind fun _ => .pure rfl
  | main => exact .bind fun _ => .bind fun _ => .pure rfl
  | other => exact .pure rfl

theorem isSome_segment?_of_decode {raw : RawCommand} {e : Endian} {command : Command}
    (h : raw.decode e = .ok command) : command.segment?.isSome = raw.isSegment := by
  obtain ⟨_, -, h⟩ := bind_eq_ok.1 h
  unfold ReadM.runAt at h
  split at h
  · rename_i hread
    cases h
    exact raw.ensures_fields e hread
  · cases h

end RawCommand

/-! ### Decoding a walk -/

theorem mapM_eq_ok_iff {α β : Type} {f : α → Except DecodeError β} {xs : List α} {ys : List β} :
    xs.mapM f = .ok ys ↔ xs.map f = ys.map .ok := by
  induction xs generalizing ys with
  | nil => cases ys <;> simp [Pure.pure, Except.pure]
  | cons x xs ih =>
    rw [List.mapM_cons, bind_eq_ok, List.map_cons]
    constructor
    · rintro ⟨y, hy, h⟩
      obtain ⟨ys, hys, ⟨⟩⟩ := bind_eq_ok.1 h
      rw [hy, ih.1 hys, List.map_cons]
    · intro h
      obtain ⟨y, ys, rfl, hy, hys⟩ := List.map_eq_cons_iff.1 h.symm
      exact ⟨y, hy.symm, bind_eq_ok.2 ⟨ys, ih.2 hys.symm, rfl⟩⟩

theorem exists_of_mapM_eq_error {α β : Type} {f : α → Except DecodeError β} {xs : List α}
    {error : DecodeError} (h : xs.mapM f = .error error) : ∃ x ∈ xs, f x = .error error := by
  induction xs with
  | nil => cases h
  | cons x xs ih =>
    rw [List.mapM_cons, bind_eq_error] at h
    rcases h with hx | ⟨y, -, h⟩
    · exact ⟨x, List.mem_cons_self, hx⟩
    · rcases bind_eq_error.1 h with hxs | ⟨ys, -, ⟨⟩⟩
      obtain ⟨x', hx', hf⟩ := ih hxs
      exact ⟨x', List.mem_cons_of_mem _ hx', hf⟩

namespace Walk

variable {walk : Walk} {e : Endian}

/-- A walk is decoded if it has no failure and all its load commands are decoded. -/
theorem decode_eq_ok_iff {commands : List Command} :
    walk.decode e = .ok commands ↔
      walk.fault = none ∧ walk.commands.map (·.decode e) = commands.map .ok := by
  unfold decode
  rw [bind_eq_ok]
  constructor
  · rintro ⟨commands', hcommands, h⟩
    cases hfault : walk.fault with
    | none =>
      rw [hfault] at h
      cases h
      exact ⟨rfl, mapM_eq_ok_iff.1 hcommands⟩
    | some fault =>
      rw [hfault] at h
      cases h
  · rintro ⟨hfault, hcommands⟩
    refine ⟨commands, mapM_eq_ok_iff.2 hcommands, ?_⟩
    rw [hfault]
    rfl

/-- When a walk is not decoded, it has a failure or one of its load commands. -/
theorem exists_of_decode_eq_error {error : DecodeError} (h : walk.decode e = .error error) :
    walk.fault = some error ∨ ∃ raw ∈ walk.commands, raw.decode e = .error error := by
  rcases bind_eq_error.1 h with h | ⟨commands, -, h⟩
  · exact .inr (exists_of_mapM_eq_error h)
  · cases hfault : walk.fault with
    | none =>
      rw [hfault] at h
      cases h
    | some fault =>
      rw [hfault] at h
      cases h
      exact .inl rfl

/-- The load commands of segments are decoded to segments, and others to none. -/
theorem map_decode_filter {raws : List RawCommand} {commands : List Command}
    (h : raws.map (·.decode e) = commands.map .ok) :
    (raws.filter (·.isSegment)).map (·.decode e) =
      (commands.filterMap (·.segment?)).map fun s => .ok (.segment s) := by
  induction raws generalizing commands with
  | nil =>
    rw [List.map_nil, List.nil_eq, List.map_eq_nil_iff] at h
    rw [h]
    rfl
  | cons raw raws ih =>
    obtain ⟨command, commands, rfl, hraw, hraws⟩ := List.map_eq_cons_iff.1 h.symm
    have hraw : raw.decode e = .ok command := hraw.symm
    have hsegment := RawCommand.isSome_segment?_of_decode hraw
    cases hcommand : command.segment? with
    | none =>
      rw [hcommand, Option.isSome_none] at hsegment
      rw [List.filter_cons_of_neg (by simp [← hsegment]), List.filterMap_cons_none hcommand]
      exact ih hraws.symm
    | some s =>
      rw [hcommand, Option.isSome_some] at hsegment
      have hcommand' : command = .segment s := by
        cases command <;> cases hcommand
        rfl
      rw [List.filter_cons_of_pos hsegment.symm, List.filterMap_cons_some hcommand, List.map_cons,
        List.map_cons, hraw, hcommand', ih hraws.symm]

/-- **Skipping other load commands makes no difference** when they are well formed. -/
theorem segments_of_decode {commands : List Command} (h : walk.decode e = .ok commands) :
    walk.segments e = .ok (commands.filterMap (·.segment?)) := by
  obtain ⟨hfault, hcommands⟩ := decode_eq_ok_iff.1 h
  refine bind_eq_ok.2 ⟨(commands.filterMap (·.segment?)).map .segment, ?_, ?_⟩
  · refine decode_eq_ok_iff.2 ⟨hfault, ?_⟩
    rw [List.map_map]
    exact map_decode_filter hcommands
  · rw [List.filterMap_map]
    exact congrArg _ List.filterMap_some

/-- The segments are those of the segment commands, in order. -/
theorem map_decode_of_segments {commands : List SegmentCommand}
    (h : walk.segments e = .ok commands) :
    (walk.commands.filter (·.isSegment)).map (·.decode e) =
      commands.map fun s => .ok (.segment s) := by
  obtain ⟨decoded, hdecoded, ⟨⟩⟩ := bind_eq_ok.1 h
  have hfilter := map_decode_filter (decode_eq_ok_iff.1 hdecoded).2
  rw [List.filter_filter] at hfilter
  simpa only [Bool.and_self] using hfilter

end Walk

/-! ### The two ways -/

namespace Image

variable {data : Bytes} {budget : Budget} {image : Image}

/-- What an image that is read is made of. -/
theorem exists_of_read (h : Image.read data budget = .ok image) :
    ∃ walk, Header.read data = .ok image.header ∧ Walk.ofImage data image.header = .ok walk ∧
      walk.decode image.header.endian = .ok image.commands ∧ image.data = data := by
  obtain ⟨header, hheader, h⟩ := bind_eq_ok.1 h
  obtain ⟨_, -, h⟩ := bind_eq_ok.1 h
  obtain ⟨walk, hwalk, h⟩ := bind_eq_ok.1 h
  obtain ⟨commands, hcommands, ⟨⟩⟩ := bind_eq_ok.1 h
  exact ⟨walk, hheader, hwalk, hcommands, rfl⟩

theorem segments_of_read (h : Image.read data budget = .ok image) :
    (Walk.ofImage data image.header >>= fun walk => walk.segments image.header.endian) =
      .ok image.segmentCommands := by
  obtain ⟨walk, -, hwalk, hcommands, -⟩ := exists_of_read h
  exact bind_eq_ok.2 ⟨walk, hwalk, Walk.segments_of_decode hcommands⟩

end Image

namespace AddressSpace

variable {data : Bytes} {header : Header}

/-- The walk over the segment commands of an image fails: the region of the load commands is not all
there, a load command is malformed, or the fields of a segment command are. -/
inductive Unreadable (data : Bytes) (header : Header) : Prop
  | region {error : DecodeError} (h : Walk.ofImage data header = .error error)
  | fault {walk : Walk} {error : DecodeError} (hwalk : Walk.ofImage data header = .ok walk)
      (h : walk.fault = some error)
  | segment {walk : Walk} {raw : RawCommand} {error : DecodeError}
      (hwalk : Walk.ofImage data header = .ok walk) (hraw : raw ∈ walk.commands)
      (hsegment : raw.isSegment) (h : raw.decode header.endian = .error error)

/-- The segment commands of an image are found unless the walk over them fails. -/
theorem unreadable_iff :
    Unreadable data header ↔
      ∃ error, (Walk.ofImage data header >>= fun walk => walk.segments header.endian) =
        .error error := by
  constructor
  · intro h
    cases hsegments : Walk.ofImage data header >>= fun walk => walk.segments header.endian with
    | error error => exact ⟨error, rfl⟩
    | ok commands =>
      -- A success leaves none of the three reasons.
      obtain ⟨walk, hwalk, hsegments⟩ := bind_eq_ok.1 hsegments
      obtain ⟨decoded, hdecoded, -⟩ := bind_eq_ok.1 hsegments
      obtain ⟨hfault, -⟩ := Walk.decode_eq_ok_iff.1 hdecoded
      have hcommands := Walk.map_decode_of_segments hsegments
      cases h with
      | region h => cases hwalk.symm.trans h
      | fault hwalk' h =>
        cases hwalk.symm.trans hwalk'
        cases hfault.symm.trans h
      | segment hwalk' hraw hsegment h =>
        cases hwalk.symm.trans hwalk'
        have hmem := List.mem_map_of_mem (f := (·.decode header.endian))
          (List.mem_filter.2 ⟨hraw, hsegment⟩)
        rw [hcommands] at hmem
        obtain ⟨s, -, hs⟩ := List.mem_map.1 hmem
        cases hs.trans h
  · rintro ⟨error, h⟩
    rcases bind_eq_error.1 h with h | ⟨walk, hwalk, h⟩
    · exact .region h
    · rcases bind_eq_error.1 h with h | ⟨decoded, -, ⟨⟩⟩
      rcases Walk.exists_of_decode_eq_error h with h | ⟨raw, hraw, h⟩
      · exact .fault hwalk h
      · obtain ⟨hraw, hsegment⟩ := List.mem_filter.1 hraw
        exact .segment hwalk hraw hsegment h

theorem not_unreadable_of_read {budget : Budget} {image : Image}
    (h : Image.read data budget = .ok image) : ¬Unreadable data image.header := by
  intro hunreadable
  obtain ⟨error, herror⟩ := unreadable_iff.1 hunreadable
  cases herror.symm.trans (Image.segments_of_read h)

theorem ofImage_of_ok {commands : List SegmentCommand}
    (h : (Walk.ofImage data header >>= fun walk => walk.segments header.endian) = .ok commands) :
    ofImage data header = build header.width data.length commands := by
  unfold ofImage
  rw [h]

theorem ofImage_of_error {error : DecodeError}
    (h : (Walk.ofImage data header >>= fun walk => walk.segments header.endian) = .error error) :
    ofImage data header = .error ⟨⟨header.width, []⟩, error⟩ := by
  unfold ofImage
  rw [h]

/-- **The two ways to an address space agree.**  When an image is read, its address space is the one
that is built from its header on, and if it cannot be built the failures are the same, with the same
segments before them.  The way from the header on fails before it places a segment only on account of
the walk over the segment commands, and then no image is read, whatever the budget. -/
theorem ofImage_agrees (data : Bytes) :
    (∀ budget image, Image.read data budget = .ok image →
      ofImage data image.header = image.addressSpace) ∧
    ∀ header, Header.read data = .ok header →
      (Unreadable data header →
        (∃ error, ofImage data header = .error ⟨⟨header.width, []⟩, error⟩) ∧
          ∀ budget, ∃ error, Image.read data budget = .error error) ∧
      (¬Unreadable data header →
        ∃ walk commands, Walk.ofImage data header = .ok walk ∧ walk.fault = none ∧
          (walk.commands.filter (·.isSegment)).map (·.decode header.endian) =
            commands.map (fun s => .ok (.segment s)) ∧
          ofImage data header = build header.width data.length commands) := by
  refine ⟨fun budget image h => ?_, fun header hheader => ⟨fun h => ?_, fun h => ?_⟩⟩
  · obtain ⟨walk, -, -, -, hdata⟩ := Image.exists_of_read h
    rw [ofImage_of_ok (Image.segments_of_read h), Image.addressSpace, hdata]
  · obtain ⟨error, herror⟩ := unreadable_iff.1 h
    refine ⟨⟨error, ofImage_of_error herror⟩, fun budget => ?_⟩
    cases hread : Image.read data budget with
    | error error => exact ⟨error, rfl⟩
    | ok image =>
      obtain ⟨walk, hheader', -⟩ := Image.exists_of_read hread
      cases hheader.symm.trans hheader'
      exact absurd h (not_unreadable_of_read hread)
  · cases hsegments : Walk.ofImage data header >>= fun walk => walk.segments header.endian with
    | error error => exact absurd (unreadable_iff.2 ⟨error, hsegments⟩) h
    | ok commands =>
      obtain ⟨walk, hwalk, hcommands⟩ := bind_eq_ok.1 hsegments
      obtain ⟨decoded, hdecoded, -⟩ := bind_eq_ok.1 hcommands
      exact ⟨walk, commands, hwalk, (Walk.decode_eq_ok_iff.1 hdecoded).1,
        Walk.map_decode_of_segments hcommands, ofImage_of_ok hsegments⟩

/-- The load commands of an image: one of an unknown kind, and a segment without sections that counts
some number of them. -/
def exampleCommands (sectionCount : UInt32) : List LoadCommand :=
  let segment : SegmentCommand :=
    { name := "__DATA", address := 0x1000, memorySize := 32, fileOffset := 0, fileSize := 32
      maxProtection := 7, initProtection := 3, sectionCount, flags := 0, sections := [] }
  [⟨0x1d, .bytes [5, 6, 7, 8], []⟩, ⟨0x1, .fields (.segment segment), []⟩]

/-- The two ways agree on an image with one segment, and both fail if the segment counts a section
that is not there. -/
theorem ofImage_agrees_example :
    let header : Header := ⟨Magic.of .little .bits32, 7, 3, 6, 2, 68, 0⟩
    let bytes (sectionCount : UInt32) : Bytes :=
      header.write ++ (exampleCommands sectionCount).flatMap (·.write .bits32 .little)
    (∃ image, Image.read (bytes 0) {} = .ok image ∧
      ofImage (bytes 0) image.header = image.addressSpace) ∧
    Header.read (bytes 0) = .ok header ∧ ¬Unreadable (bytes 0) header ∧
    Header.read (bytes 1) = .ok header ∧ Unreadable (bytes 1) header ∧
      ∀ budget, ∃ error, Image.read (bytes 1) budget = .error error := by
  intro header bytes
  have himage : Image.read (bytes 0) {} =
      .ok ⟨bytes 0, header, (exampleCommands 0).map (·.command .bits32 .little), {}⟩ := by
    decide +kernel
  have hheader (sectionCount : UInt32) : Header.read (bytes sectionCount) = .ok header :=
    Header.read_append (show header.magic = Magic.of .little .bits32 from rfl) _
  have hunreadable : Unreadable (bytes 1) header :=
    unreadable_iff.2 ⟨.badCommand 40 .sectionsPastSize, by decide +kernel⟩
  exact ⟨⟨_, himage, (ofImage_agrees (bytes 0)).1 {} _ himage⟩, hheader 0,
    not_unreadable_of_read himage, hheader 1, hunreadable,
    (((ofImage_agrees (bytes 1)).2 header (hheader 1)).1 hunreadable).2⟩

end AddressSpace

end MachO
