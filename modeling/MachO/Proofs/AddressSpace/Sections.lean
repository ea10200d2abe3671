import Mathlib.Data.List.Pairwise
import MachO.Proofs.AddressSpace.Backing

/-!
# Sections of an address space

* `Section.Sized`: the file holds all of a section, or none of it;
* `Segment.sectionContaining?_eq`, `Segment.GapAt`: which section is found for an address, and for
  which addresses none is;
* `AddressSpace.sized_of_build`, `AddressSpace.sections_apart`: what holds of the sections of an
  address space that was built;
* `AddressSpace.segment_eq_of_mem_memory`, `AddressSpace.segment_eq_of_mem_file`,
  `AddressSpace.section_eq_of_mem_memory`: an address or a byte lies in one segment only, and in one
  section only.
-/

namespace MachO

/-- Of things whose footprints are apart, only one takes any byte or address. -/
theorem eq_of_not_apart {α : Type} {footprint : α → Footprint} {l : List α}
    (h : (l.map footprint).Pairwise Footprint.Apart) {x y : α} (hx : x ∈ l) (hy : y ∈ l)
    (hxy : ¬(footprint x).Apart (footprint y)) : x = y := by
  by_contra hne
  have : Std.Symm fun x y => (footprint x).Apart (footprint y) := ⟨fun _ _ => Footprint.Apart.symm⟩
  exact hxy ((List.pairwise_map.1 h).forall hx hy hne)

theorem Footprint.not_apart_of_file {a b : Footprint} {p : Nat} (ha : p ∈ a.file)
    (hb : p ∈ b.file) : ¬a.Apart b := fun h => h.1 p ha hb

theorem Footprint.not_apart_of_memory {a b : Footprint} {p : Nat} (ha : p ∈ a.memory)
    (hb : p ∈ b.memory) : ¬a.Apart b := fun h => h.2 p ha hb

/-! ### Sections -/

/-- The file holds a byte for each address of the section, or none if the section is filled with
zeros. -/
def Section.Sized (t : Section) : Prop :=
  t.file.size = if t.kind.isZeroFill then 0 else t.memory.size

theorem SectionHeader.sized_of_place {header : SectionHeader} {segment index : Nat} {name : String}
    {t : Section} (h : header.place segment index name = .ok t) : t.Sized := by
  unfold place at h
  simp only [bind_eq_ok, expect_eq_ok_iff, ByteRange.ofSize?_eq_some_iff] at h
  obtain ⟨kind, -, memory, ⟨-, rfl⟩, file, hfile, heq⟩ := h
  cases heq
  show file.size = if kind.isZeroFill then 0 else header.size.toNat
  unfold file? at hfile
  by_cases hkind : kind.isZeroFill
  · rw [if_pos hkind] at hfile ⊢
    cases hfile
    rfl
  · rw [if_neg hkind, ByteRange.ofSize?_eq_some_iff] at hfile
    rw [if_neg hkind, hfile.2]

/-- What holds of every section that is placed holds of all sections. -/
theorem SegmentCommand.forall_sections_of_placeSections {segment : Nat} {name : String}
    {file memory : ByteRange} {P : Section → Prop}
    (hplace : ∀ {header : SectionHeader} {index : Nat} {t : Section},
      header.place segment index name = .ok t → P t)
    {placed sections : List Section} {headers : List SectionHeader} (hplaced : ∀ t ∈ placed, P t)
    (h : placeSections segment name file memory placed headers = .ok sections) :
    ∀ t ∈ sections, P t := by
  induction headers generalizing placed with
  | nil =>
    cases h
    exact hplaced
  | cons header headers ih =>
    obtain ⟨t, ht, h⟩ := bind_eq_ok.1 h
    obtain ⟨_, -, h⟩ := bind_eq_ok.1 h
    obtain ⟨_, -, h⟩ := bind_eq_ok.1 h
    exact ih (List.forall_mem_append.2 ⟨hplaced, List.forall_mem_singleton.2 (hplace ht)⟩) h

namespace AddressSpace

variable {width : Width} {imageSize : Nat} {commands : List SegmentCommand} {space : AddressSpace}

theorem sized_of_build (h : build width imageSize commands = .ok space) :
    ∀ s ∈ space.segments, ∀ t ∈ s.sections, t.Sized := by
  refine forall_segments_of_extend (fun _ hplace => ?_) (List.forall_mem_nil _) h
  unfold place at hplace
  simp only [bind_eq_ok, expect_eq_ok_iff, require_eq_ok_iff] at hplace
  obtain ⟨memory, -, _, -, file, -, _, -, _, -, _, -, sections, hsections, heq⟩ := hplace
  cases heq
  exact SegmentCommand.forall_sections_of_placeSections SectionHeader.sized_of_place
    (List.forall_mem_nil _) hsections

/-- No two sections of a segment share a byte of the file or an address. -/
theorem sections_apart (h : build width imageSize commands = .ok space) {s : Segment}
    (hs : s ∈ space.segments) : (s.sections.map Section.footprint).Pairwise Footprint.Apart := by
  obtain ⟨command, hvalid, -, hsections⟩ := exists_valid_of_build h s hs
  rw [hsections]
  exact List.pairwise_map.2 hvalid.sections_apart

/-- The file range of a segment is a part of the image. -/
theorem file_stop_le_of_build (h : build width imageSize commands = .ok space) {s : Segment}
    (hs : s ∈ space.segments) : s.file.stop ≤ imageSize ∧ s.file.stop < UInt64.size := by
  obtain ⟨command, hvalid, hfootprint, -⟩ := exists_valid_of_build h s hs
  have hfile : s.file = command.footprint.file := congrArg Footprint.file hfootprint
  rw [hfile]
  exact ⟨hvalid.file_le_image, hvalid.file_lt⟩

end AddressSpace

theorem Segment.mem_of_sectionContaining? {s : Segment} {t : Section} {address : Nat}
    (h : s.sectionContaining? address = some t) : t ∈ s.sections ∧ address ∈ t.memory :=
  ⟨List.mem_of_find?_eq_some h, by simpa using List.find?_some h⟩

theorem Segment.notMem_of_sectionContaining? {s : Segment} {address : Nat}
    (h : s.sectionContaining? address = none) : ∀ t ∈ s.sections, address ∉ t.memory := by
  simpa [sectionContaining?] using h

/-- The section that is found for an address is any one in which the address lies. -/
theorem Segment.sectionContaining?_eq {s : Segment}
    (hapart : (s.sections.map Section.footprint).Pairwise Footprint.Apart) {t : Section}
    (ht : t ∈ s.sections) {address : Nat} (haddress : address ∈ t.memory) :
    s.sectionContaining? address = some t := by
  cases hfound : s.sectionContaining? address with
  | none => exact absurd haddress (notMem_of_sectionContaining? hfound t ht)
  | some t' =>
    obtain ⟨ht', haddress'⟩ := mem_of_sectionContaining? hfound
    have hmeet : ¬t'.footprint.Apart t.footprint := Footprint.not_apart_of_memory haddress' haddress
    rw [eq_of_not_apart hapart ht' ht hmeet]

/-- The address lies in the segment, but in none of its sections. -/
def Segment.GapAt (s : Segment) (address : Nat) : Prop :=
  address ∈ s.memory ∧ ∀ t ∈ s.sections, address ∉ t.memory

theorem Segment.sectionContaining?_eq_none {s : Segment} {address : Nat} (h : s.GapAt address) :
    s.sectionContaining? address = none :=
  List.find?_eq_none.2 fun t ht hmem => h.2 t ht (of_decide_eq_true hmem)

namespace AddressSpace

variable {width : Width} {imageSize : Nat} {commands : List SegmentCommand} {space : AddressSpace}
  (h : build width imageSize commands = .ok space)
include h

/-- The segment and its index are found for every address of the segment. -/
theorem exists_segmentContaining? {s : Segment} (hs : s ∈ space.segments) {address : Nat}
    (haddress : address ∈ s.memory) :
    ∃ index, space.segmentContaining? address = some (index, s) := by
  obtain ⟨index, hindex⟩ := List.mem_iff_getElem?.1 hs
  exact ⟨index, segmentContaining?_eq (footprints_apart h) hindex haddress⟩

theorem mem_memory_of_mem_section {s : Segment} (hs : s ∈ space.segments) {t : Section}
    (ht : t ∈ s.sections) {address : Nat} (haddress : address ∈ t.memory) : address ∈ s.memory :=
  (sectionsInside_of_build h s hs t ht).2 address haddress

/-- Only one segment holds an address. -/
theorem segment_eq_of_mem_memory {s s' : Segment} (hs : s ∈ space.segments)
    (hs' : s' ∈ space.segments) {address : Nat} (haddress : address ∈ s.memory)
    (haddress' : address ∈ s'.memory) : s = s' :=
  eq_of_not_apart (footprints_apart h) hs hs'
    (Footprint.not_apart_of_memory (a := s.footprint) (b := s'.footprint) haddress haddress')

/-- Only one segment holds a byte of the file. -/
theorem segment_eq_of_mem_file {s s' : Segment} (hs : s ∈ space.segments)
    (hs' : s' ∈ space.segments) {p : Nat} (hp : p ∈ s.file) (hp' : p ∈ s'.file) : s = s' :=
  eq_of_not_apart (footprints_apart h) hs hs'
    (Footprint.not_apart_of_file (a := s.footprint) (b := s'.footprint) hp hp')

/-- Only one section of a segment holds an address. -/
theorem section_eq_of_mem_memory {s : Segment} (hs : s ∈ space.segments) {t t' : Section}
    (ht : t ∈ s.sections) (ht' : t' ∈ s.sections) {address : Nat} (haddress : address ∈ t.memory)
    (haddress' : address ∈ t'.memory) : t = t' :=
  eq_of_not_apart (sections_apart h hs) ht ht'
    (Footprint.not_apart_of_memory (a := t.footprint) (b := t'.footprint) haddress haddress')

/-- The byte behind an address of a section is one of the section. -/
theorem mem_file_of_mem_section {s : Segment} (hs : s ∈ space.segments) {t : Section}
    (ht : t ∈ s.sections) {address : Nat} (haddress : address ∈ t.memory)
    (hkind : ¬t.kind.isZeroFill) : t.file.start + (address - t.memory.start) ∈ t.file := by
  have hsized : t.file.size = _ := sized_of_build h s hs t ht
  rw [if_neg hkind] at hsized
  obtain ⟨hstart, hstop⟩ := haddress
  unfold ByteRange.stop at hstop
  exact ByteRange.add_mem (by omega)

end AddressSpace

end MachO
