import MachO.Proofs.Actions
import MachO.Proofs.AddressSpace.Backing
import MachO.Proofs.Agreement
import MachO.Proofs.Opcode.Begun

/-!
# The bytes of slots in chains

A chain is looked up in the image, eight bytes at a time.  The first byte of a slot is one of the
file range of its segment.  Of the other seven only so much is checked that they are bytes of the
image.

* `Bind.exists_offset_of_slotAt`: where a slot is read from;
* `Bind.follow_congr`, `Bind.alike_of_follow`: the image matters to a bind stream through the slots
  of its chains only;
* `Bind.slots_begin_in_file`: the bytes of the image that a bind stream depends on.
-/

namespace MachO

namespace Bind

variable {space : AddressSpace} {image image' : Bytes} {e : Endian} {position : Nat}

/-! ### Where slots are -/

/-- A slot is read from the file range behind the place, as far as its first byte goes, and from the
image. -/
theorem exists_offset_of_slotAt (hapart : space.footprints.Pairwise Footprint.Apart)
    (hinside : ∀ s ∈ space.segments, s.SectionsInside) {r : Registers} {index address : Nat}
    {slot : Slot} (h : slotAt space image e position r = .ok (index, address, slot)) :
    ∃ s offset, space.segments[index]? = some s ∧ address = s.memory.start + r.offset ∧
      space.fileOffset address = .ok offset ∧ offset ∈ s.file ∧ offset + 8 ≤ image.length ∧
        slot = Slot.ofWord (e.longAt image offset) := by
  obtain ⟨s, hs, -, haddress, -, hcontaining⟩ :=
    Registers.isSlot_of_target hapart (target_of_slotAt h)
  unfold slotAt at h
  rw [target_of_slotAt h, ok_bind] at h
  dsimp only at h
  cases hoffset : space.fileOffset address with
  | error error =>
    rw [hoffset] at h
    cases h
  | ok offset =>
    rw [hoffset] at h
    obtain ⟨word, hword, h⟩ := bind_eq_ok.1 h
    cases h
    rw [ReadM.runAt_u64] at hword
    split at hword
    · rename_i hlength
      cases hword
      rw [List.length_take, List.length_drop] at hlength
      have hfile := AddressSpace.mem_file_of_fileOffset hinside hcontaining hoffset
      exact ⟨s, offset, hs, haddress, rfl, hfile, by omega, rfl⟩
    · cases hword

/-! ### Two images -/

/-- Two images that hold the same eight bytes from every byte of a segment on have the same slots. -/
theorem slotAt_congr (hinside : ∀ s ∈ space.segments, s.SectionsInside)
    (h : ∀ s ∈ space.segments, ∀ p ∈ s.file, Bytes.AgreeOn ⟨p, 8⟩ image image') (r : Registers) :
    slotAt space image' e position r = slotAt space image e position r := by
  unfold slotAt
  cases r.target space position with
  | error error => rfl
  | ok found =>
    obtain ⟨index, address⟩ := found
    rw [ok_bind, ok_bind]
    dsimp only
    cases hoffset : space.fileOffset address with
    | error error => rfl
    | ok offset =>
      obtain ⟨_, s, hs, -⟩ := AddressSpace.fileOffset_eq_ok_iff.1 hoffset
      have hfile := AddressSpace.mem_file_of_fileOffset hinside hs hoffset
      have hagree := h s (AddressSpace.mem_of_segmentContaining? hs) offset hfile
      dsimp only
      rw [hagree.runAt_u64_eq]

/-- A chain depends on its slots only. -/
theorem follow_congr
    (h : ∀ r, slotAt space image' e position r = slotAt space image e position r) (s : State) :
    follow space image' e position s = follow space image e position s := by
  rw [follow_eq space image', follow_eq space image, h]
  cases slotAt space image e position s.registers with
  | error error => rfl
  | ok found =>
    obtain ⟨index, address, slot⟩ := found
    dsimp only
    by_cases hbinds : slot.binds
    · rw [if_pos hbinds, if_pos hbinds]
    · rw [if_neg hbinds, if_neg hbinds]
      by_cases hlast : slot.distance * 8 = 0
      · rw [if_pos hlast, if_pos hlast]
      · rw [if_neg hlast, if_neg hlast]
        cases hadvance : Registers.advance space (slot.distance * 8) position s.registers with
        | ok _ r => exact follow_congr h { s with registers := r }
        | error error r => rfl
termination_by space.width.span - s.registers.offset
decreasing_by exact Registers.span_sub_offset_lt hadvance (Nat.pos_of_ne_zero hlast)

/-- A bind stream depends on the image only where it follows a chain. -/
theorem alike_of_follow {image image' : Option (Bytes × Endian)}
    (h : ∀ position s, Context.follow ⟨space, image'⟩ position s =
      Context.follow ⟨space, image⟩ position s) :
    Opcode.Alike (⟨space, image⟩ : Context) ⟨space, image'⟩ (fun _ => True) fun _ => True where
  resume s _ := by
    refine ⟨?_, Effect.keeps_true _⟩
    show resume _ s = resume _ s
    unfold resume
    cases s.pending with
    | chain position => exact h position s
    | _ => rfl
  act position op s _ _ := by
    refine ⟨?_, Effect.keeps_true _⟩
    cases op with
    | followChain => exact h position { s with pending := .chain position }
    | _ => rfl

/-- **The first byte of a slot is one of the file range of the segment that is walked, and all eight
are bytes of the image.**  The last seven may lie behind the file range, unless the slot and the end
of the range are aligned.  A bind stream depends on no other bytes of the image. -/
theorem slots_begin_in_file {width : Width} {imageSize : Nat} {commands : List SegmentCommand}
    {space : AddressSpace} (h : AddressSpace.build width imageSize commands = .ok space)
    (e : Endian) :
    (∀ (image : Bytes) (position : Nat) (r : Registers) (index address : Nat) (slot : Slot),
      slotAt space image e position r = .ok (index, address, slot) →
        r.segment = some index ∧ ∃ s offset, space.segments[index]? = some s ∧
          address = s.memory.start + r.offset ∧ space.fileOffset address = .ok offset ∧
          slot = Slot.ofWord (e.longAt image offset) ∧ offset ∈ s.file ∧
          offset + 8 ≤ image.length ∧ (8 ∣ offset → 8 ∣ s.file.stop → s.file.Covers ⟨offset, 8⟩)) ∧
    ∀ image image' : Bytes,
      (∀ s ∈ space.segments, ∀ p ∈ s.file, Bytes.AgreeOn ⟨p, 8⟩ image image') →
        ∀ kind bytes limit, Source.toList (stream kind bytes ⟨space, some (image', e)⟩ limit) =
          Source.toList (stream kind bytes ⟨space, some (image, e)⟩ limit) := by
  have hinside := AddressSpace.sectionsInside_of_build h
  constructor
  · intro image position r index address slot hslot
    obtain ⟨s, offset, hs, haddress, hoffset, hfile, himage, hword⟩ :=
      exists_offset_of_slotAt (AddressSpace.footprints_apart h) hinside hslot
    have hsegment := (Registers.target_eq_ok_iff.1 (target_of_slotAt hslot)).1
    refine ⟨hsegment, s, offset, hs, haddress, hoffset, hword, hfile, himage,
      fun hslot hstop => .inr ⟨hfile.1, ?_⟩⟩
    have hlt := hfile.2
    show offset + 8 ≤ s.file.stop
    omega
  · intro image image' hagree kind bytes limit
    have hfollow (position : Nat) (s : State) : Context.follow ⟨space, some (image', e)⟩ position s =
        Context.follow ⟨space, some (image, e)⟩ position s :=
      follow_congr (slotAt_congr hinside hagree) s
    exact OpcodeStream.toList_congr_of_begun (stream kind bytes ⟨space, some (image, e)⟩ limit)
      (alike_of_follow hfollow) (fun _ => trivial) fun _ _ => trivial

/-- A segment of 16 bytes, of which the file holds the first 12. -/
def shortCommand : SegmentCommand := { exampleCommand with memorySize := 16, fileSize := 12 }

/-- The address space of the segment. -/
def shortSpace : AddressSpace where
  width := .bits64
  segments := exampleSpace.segments.map fun s => { s with file := ⟨0, 12⟩, memory := ⟨0x1000, 16⟩ }

/-- A table with the symbol `_a`, and the chain from offset 8 of the segment. -/
def shortOpcodes : Bytes := [0x11, 0x40, 95, 97, 0, 0xd0, 1, 0x90, 0x70, 8, 0xd1, 0]

/-- The registers at offset 8 of the segment. -/
def shortRegisters : Registers := { Registers.initial with segment := some 0, offset := 8 }

/-- The chain is read from the image, and does not depend on bytes further behind the segment. -/
theorem slots_begin_in_file_short :
    let image : Bytes := List.replicate 15 0 ++ [0x40] ++ List.replicate 16 0
    let image' : Bytes := List.replicate 15 0 ++ [0x40] ++ List.replicate 4 0 ++ List.replicate 12 1
    AddressSpace.build .bits64 32 [shortCommand] = .ok shortSpace ∧
      (∃ s offset, shortSpace.segments[0]? = some s ∧ shortSpace.fileOffset 0x1008 = .ok offset ∧
        offset ∈ s.file ∧ offset + 8 ≤ image.length) ∧
      Source.toList (stream .normal shortOpcodes ⟨shortSpace, some (image', .little)⟩ none) =
        Source.toList (stream .normal shortOpcodes ⟨shortSpace, some (image, .little)⟩ none) := by
  intro image image'
  have hbuild : AddressSpace.build .bits64 32 [shortCommand] = .ok shortSpace := rfl
  have hslots := slots_begin_in_file hbuild .little
  have hslot : slotAt shortSpace image .little 10 shortRegisters =
      .ok (0, 0x1008, ⟨0, true, 0, false⟩) := by
    decide +kernel
  obtain ⟨-, s, offset, hs, -, hoffset, -, hfile, himage, -⟩ := hslots.1 _ _ _ _ _ _ hslot
  refine ⟨hbuild, ⟨s, offset, hs, hoffset, hfile, himage⟩, hslots.2 image image' ?_ _ _ _⟩
  intro s hs p hp
  obtain rfl := List.mem_singleton.1 hs
  have hpart : Bytes.AgreeOn ⟨0, 20⟩ image image' := by decide
  have hlt : p < 12 := hp.2
  exact hpart.part (Nat.zero_le p) (by omega)

/-- A slot that begins in the file range of its segment and ends behind it is read and bound. -/
theorem slot_ends_behind_file :
    let image : Bytes := List.replicate 15 0 ++ [0x40]
    AddressSpace.build .bits64 16 [shortCommand] = .ok shortSpace ∧
      slotAt shortSpace image .little 10 shortRegisters =
        .ok (0, 0x1008, Slot.ofWord (Endian.little.longAt image 8)) ∧
      shortSpace.fileOffset 0x1008 = .ok 8 ∧ ¬(ByteRange.mk 0 12).Covers ⟨8, 8⟩ ∧
      Source.toList (stream .normal shortOpcodes ⟨shortSpace, some (image, .little)⟩ none) =
        [.ok ⟨0, 8, 0x1008, "_a", 1, .pointer, 0, 0, 10⟩] := by
  decide +kernel

end Bind

end MachO
