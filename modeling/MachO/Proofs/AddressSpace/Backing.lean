import MachO.Proofs.AddressSpace.Resolve

/-!
# File bytes behind addresses

* `AddressSpace.sectionsInside_of_build`: sections lie inside their segments;
* `AddressSpace.fileOffset_eq_ok_iff`: the place of the byte behind an address;
* `AddressSpace.mem_file_of_fileOffset`: that byte is one of the segment in which the address lies.
-/

namespace MachO

/-- The sections of a segment take no other bytes and addresses than the segment. -/
def Segment.SectionsInside (s : Segment) : Prop :=
  ∀ sect ∈ s.sections, sect.footprint.Inside s.footprint

/-- The file range behind an address is a part of that of the segment. -/
theorem Segment.SectionsInside.mem_file_of_backing {s : Segment} (hs : s.SectionsInside)
    {address p : Nat} (hp : p ∈ (s.backing address).2) : p ∈ s.file := by
  unfold backing at hp
  cases hsect : s.sectionContaining? address with
  | none =>
    rw [hsect] at hp
    exact hp
  | some sect =>
    rw [hsect] at hp
    exact (hs sect (List.mem_of_find?_eq_some hsect)).1 p hp

namespace AddressSpace

variable {space : AddressSpace}

theorem sectionsInside_of_build {width : Width} {imageSize : Nat} {commands : List SegmentCommand}
    (h : build width imageSize commands = .ok space) :
    ∀ s ∈ space.segments, s.SectionsInside := by
  intro s hs sect hsect
  obtain ⟨command, hvalid, hfootprint, hsections⟩ := exists_valid_of_build h s hs
  have hmem : sect.footprint ∈ command.sections.map SectionHeader.footprint :=
    hsections ▸ List.mem_map_of_mem hsect
  obtain ⟨header, hheader, heq⟩ := List.mem_map.1 hmem
  rw [← heq, hfootprint]
  exact (hvalid.sections_valid header hheader).inside

theorem mem_of_segmentContaining? {address index : Nat} {s : Segment}
    (h : space.segmentContaining? address = some (index, s)) : s ∈ space.segments :=
  List.mem_of_getElem? (mem_memory_of_segmentContaining? h).1

theorem fileOffset_eq_ok_iff {address offset : Nat} :
    space.fileOffset address = .ok offset ↔
      ∃ index s, space.segmentContaining? address = some (index, s) ∧
        address - (s.backing address).1.start < (s.backing address).2.size ∧
        offset = (s.backing address).2.start + (address - (s.backing address).1.start) := by
  unfold fileOffset
  cases hs : space.segmentContaining? address with
  | none => simp
  | some found =>
    obtain ⟨index, s⟩ := found
    dsimp only
    split
    · rename_i hdistance
      simp [hdistance, eq_comm]
    · rename_i hdistance
      simp [hdistance]

/-- **The byte behind an address is one of the file range of the segment in which the address
lies.** -/
theorem mem_file_of_fileOffset (hinside : ∀ s ∈ space.segments, s.SectionsInside)
    {address offset index : Nat} {s : Segment}
    (hs : space.segmentContaining? address = some (index, s))
    (h : space.fileOffset address = .ok offset) : offset ∈ s.file := by
  obtain ⟨index', s', hs', hdistance, rfl⟩ := fileOffset_eq_ok_iff.1 h
  cases hs.symm.trans hs'
  exact (hinside s (mem_of_segmentContaining? hs)).mem_file_of_backing (ByteRange.add_mem hdistance)

end AddressSpace

end MachO
