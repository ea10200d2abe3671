import MachO.Proofs.AddressSpace.Sections

/-!
# Which addresses have a file byte

An address space that was built has a file byte behind an address of a section that is not filled
with zeros, and behind an address between sections as far as the file fills the segment.

* `Section.Displaced`, `Segment.Shares`: a section whose bytes are not where the segment would have
  them, and an address outside it that has one of its bytes;
* `AddressSpace.Backs`, `AddressSpace.fileOffset_eq_ok_iff_backs`: the byte behind an address,
  without the order of segments and sections;
* `AddressSpace.fileOffset_classifies`: the addresses that have a byte, and where it is;
* `AddressSpace.fileOffset_eq_iff_displaced`: when one byte is behind two addresses.
-/

namespace MachO

/-- The section does not begin as far behind the start of its segment in the file as it does in
memory. -/
def Section.Displaced (t : Section) (s : Segment) : Prop :=
  t.file.start + s.memory.start ≠ s.file.start + t.memory.start

/-- Address `a` lies in a displaced section, and `b` in no section of the segment.  The byte that the
section has for `a` is the one that the segment has for `b`. -/
def Segment.Shares (s : Segment) (a b : Nat) : Prop :=
  ∃ t ∈ s.sections, t.Displaced s ∧ a ∈ t.memory ∧ s.GapAt b ∧
    t.file.start + (a - t.memory.start) = s.file.start + (b - s.memory.start)

/-- An address in a section and one in no section have one byte only if the section is displaced. -/
theorem Segment.shares_of_eq {s : Segment} {t : Section} (ht : t ∈ s.sections) {a b : Nat}
    (ha : a ∈ t.memory) (hb : s.GapAt b)
    (heq : t.file.start + (a - t.memory.start) = s.file.start + (b - s.memory.start)) :
    s.Shares a b := by
  refine ⟨t, ht, fun hplaced => ?_, ha, hb, heq⟩
  -- Otherwise the two addresses would be the same one.
  have hab : a = b := by
    have hastart := ha.1
    have hbstart := hb.1.1
    omega
  exact hb.2 t ht (hab ▸ ha)

namespace AddressSpace

variable {width : Width} {imageSize : Nat} {commands : List SegmentCommand} {space : AddressSpace}

/-- Where the file byte behind an address is: as far behind the start of the file range as the address
is behind the start of the addresses, of the section in which the address lies or else of the
segment. -/
inductive Backs (space : AddressSpace) (address offset : Nat) : Prop
  | inSection {s : Segment} {t : Section} (hs : s ∈ space.segments) (ht : t ∈ s.sections)
      (haddress : address ∈ t.memory) (hkind : ¬t.kind.isZeroFill)
      (hoffset : offset = t.file.start + (address - t.memory.start))
  | inGap {s : Segment} (hs : s ∈ space.segments) (hgap : s.GapAt address)
      (hdistance : address - s.memory.start < s.file.size)
      (hoffset : offset = s.file.start + (address - s.memory.start))

section Build

variable (h : build width imageSize commands = .ok space)
include h

/-- **The order of segments and sections does not matter to the byte behind an address.** -/
theorem fileOffset_eq_ok_iff_backs {address offset : Nat} :
    space.fileOffset address = .ok offset ↔ space.Backs address offset := by
  rw [fileOffset_eq_ok_iff]
  constructor
  · rintro ⟨index, s, hfound, hdistance, hoffset⟩
    obtain ⟨hindex, haddress⟩ := mem_memory_of_segmentContaining? hfound
    have hs : s ∈ space.segments := List.mem_of_getElem? hindex
    unfold Segment.backing at hdistance hoffset
    cases hsection : s.sectionContaining? address with
    | none =>
      rw [hsection] at hdistance hoffset
      exact .inGap hs ⟨haddress, Segment.notMem_of_sectionContaining? hsection⟩ hdistance hoffset
    | some t =>
      rw [hsection] at hdistance hoffset
      obtain ⟨ht, hmem⟩ := Segment.mem_of_sectionContaining? hsection
      refine .inSection hs ht hmem (fun hkind => ?_) hoffset
      have hsized : t.file.size = _ := sized_of_build h s hs t ht
      rw [if_pos hkind] at hsized
      dsimp only at hdistance
      omega
  · intro hbacks
    cases hbacks with
    | @inSection s t hs ht haddress hkind hoffset =>
      obtain ⟨index, hfound⟩ :=
        exists_segmentContaining? h hs (mem_memory_of_mem_section h hs ht haddress)
      have hsized : t.file.size = _ := sized_of_build h s hs t ht
      rw [if_neg hkind] at hsized
      refine ⟨index, s, hfound, ?_⟩
      unfold Segment.backing
      rw [Segment.sectionContaining?_eq (sections_apart h hs) ht haddress]
      obtain ⟨hstart, hstop⟩ := haddress
      unfold ByteRange.stop at hstop
      exact ⟨by dsimp only; omega, hoffset⟩
    | @inGap s hs hgap hdistance hoffset =>
      obtain ⟨index, hfound⟩ := exists_segmentContaining? h hs hgap.1
      refine ⟨index, s, hfound, ?_⟩
      unfold Segment.backing
      rw [Segment.sectionContaining?_eq_none hgap]
      exact ⟨hdistance, hoffset⟩

/-- The byte behind an address of a segment is the one of its section, or else the one of the
segment. -/
theorem Backs.cases_of_mem {s : Segment} (hs : s ∈ space.segments) {address offset : Nat}
    (hmem : address ∈ s.memory) (hbacks : space.Backs address offset) :
    (∃ t ∈ s.sections, address ∈ t.memory ∧ offset ∈ t.file ∧
        offset = t.file.start + (address - t.memory.start)) ∨
      s.GapAt address ∧ offset = s.file.start + (address - s.memory.start) := by
  cases hbacks with
  | @inSection s' t hs' ht haddress hkind hoffset =>
    have hfile := mem_file_of_mem_section h hs' ht haddress hkind
    have hmem' := mem_memory_of_mem_section h hs' ht haddress
    obtain rfl := segment_eq_of_mem_memory h hs hs' hmem hmem'
    rw [← hoffset] at hfile
    exact .inl ⟨t, ht, haddress, hfile, hoffset⟩
  | inGap hs' hgap hdistance hoffset =>
    obtain rfl := segment_eq_of_mem_memory h hs hs' hmem hgap.1
    exact .inr ⟨hgap, hoffset⟩

/-- The byte behind an address is known once the section is known in which the address lies. -/
theorem Backs.eq_of_mem_section {s : Segment} (hs : s ∈ space.segments) {t : Section}
    (ht : t ∈ s.sections) {address offset : Nat} (haddress : address ∈ t.memory)
    (hbacks : space.Backs address offset) :
    offset ∈ t.file ∧ offset = t.file.start + (address - t.memory.start) := by
  have hmem := mem_memory_of_mem_section h hs ht haddress
  rcases cases_of_mem h hs hmem hbacks with ⟨t', ht', haddress', hoffset⟩ | ⟨hgap, -⟩
  · obtain rfl := section_eq_of_mem_memory h hs ht ht' haddress haddress'
    exact hoffset
  · exact absurd haddress (hgap.2 t ht)

/-- The byte behind an address is known once the segment is known in which the address lies, if it
lies in no section. -/
theorem Backs.eq_of_gapAt {s : Segment} (hs : s ∈ space.segments) {address offset : Nat}
    (hgap : s.GapAt address) (hbacks : space.Backs address offset) :
    offset = s.file.start + (address - s.memory.start) := by
  rcases cases_of_mem h hs hgap.1 hbacks with ⟨t, ht, haddress, -⟩ | ⟨-, hoffset⟩
  · exact absurd haddress (hgap.2 t ht)
  · exact hoffset

/-- The byte behind an address is one of the segment in which the address lies. -/
theorem Backs.exists_mem_file {address offset : Nat} (hbacks : space.Backs address offset) :
    ∃ s ∈ space.segments, address ∈ s.memory ∧ offset ∈ s.file := by
  cases hbacks with
  | @inSection s t hs ht haddress hkind hoffset =>
    have hfile := mem_file_of_mem_section h hs ht haddress hkind
    rw [← hoffset] at hfile
    exact ⟨s, hs, mem_memory_of_mem_section h hs ht haddress,
      (sectionsInside_of_build h s hs t ht).1 offset hfile⟩
  | @inGap s hs hgap hdistance hoffset =>
    rw [hoffset]
    exact ⟨s, hs, hgap.1, ByteRange.add_mem hdistance⟩

/-- In a segment without sections that the file fills, bytes are where their addresses are. -/
theorem fileOffset_of_filled {s : Segment} (hs : s ∈ space.segments) (hsections : s.sections = [])
    (hfilled : s.file.size = s.memory.size) {offset : Nat} (hoffset : offset < s.memory.size) :
    space.fileOffset (s.memory.start + offset) = .ok (s.file.start + offset) := by
  have hgap : s.GapAt (s.memory.start + offset) := by
    refine ⟨ByteRange.add_mem hoffset, ?_⟩
    rw [hsections]
    exact List.forall_mem_nil _
  refine (fileOffset_eq_ok_iff_backs h).2 (.inGap hs hgap ?_ ?_)
  · rw [Nat.add_sub_cancel_left, hfilled]
    exact hoffset
  · rw [Nat.add_sub_cancel_left]

/-- **An address has a byte of the file if it lies in a section that is not filled with zeros, or in
no section and not in the end of its segment that the file does not fill.**  The byte is one of the
image, and of the segment and the section in which the address lies; and inside one section, or
outside all sections of one segment, bytes are as far apart as their addresses. -/
theorem fileOffset_classifies (a : Nat) :
    ((∃ p, space.fileOffset a = .ok p) ↔
        ∃ s ∈ space.segments, a ∈ s.memory ∧
          ((∃ t ∈ s.sections, a ∈ t.memory ∧ ¬t.kind.isZeroFill) ∨
            ((∀ t ∈ s.sections, a ∉ t.memory) ∧ a - s.memory.start < s.file.size))) ∧
      (∀ p, space.fileOffset a = .ok p →
        p < imageSize ∧ p < UInt64.size ∧
          ∀ s ∈ space.segments, a ∈ s.memory →
            p ∈ s.file ∧ ∀ t ∈ s.sections, a ∈ t.memory → p ∈ t.file) ∧
      ∀ b p q, space.fileOffset a = .ok p → space.fileOffset b = .ok q →
        ∀ s ∈ space.segments,
          (∃ t ∈ s.sections, a ∈ t.memory ∧ b ∈ t.memory) ∨ (s.GapAt a ∧ s.GapAt b) →
          (q : Int) - p = b - a := by
  simp only [fileOffset_eq_ok_iff_backs h]
  refine ⟨⟨?_, ?_⟩, fun p hp => ?_, fun b p q hp hq s hs hplace => ?_⟩
  · rintro ⟨p, ⟨hs, ht, haddress, hkind, -⟩ | ⟨hs, hgap, hdistance, -⟩⟩
    · exact ⟨_, hs, mem_memory_of_mem_section h hs ht haddress, .inl ⟨_, ht, haddress, hkind⟩⟩
    · exact ⟨_, hs, hgap.1, .inr ⟨hgap.2, hdistance⟩⟩
  · rintro ⟨s, hs, hmem, ⟨t, ht, haddress, hkind⟩ | ⟨hnone, hdistance⟩⟩
    · exact ⟨_, .inSection hs ht haddress hkind rfl⟩
    · exact ⟨_, .inGap hs ⟨hmem, hnone⟩ hdistance rfl⟩
  · obtain ⟨s, hs, hmem, hfile⟩ := Backs.exists_mem_file h hp
    obtain ⟨himage, hsize⟩ := file_stop_le_of_build h hs
    refine ⟨Nat.lt_of_lt_of_le hfile.2 himage, Nat.lt_trans hfile.2 hsize, fun s' hs' hmem' => ?_⟩
    obtain rfl := segment_eq_of_mem_memory h hs hs' hmem hmem'
    refine ⟨hfile, fun t ht haddress => ?_⟩
    exact (Backs.eq_of_mem_section h hs ht haddress hp).1
  · rcases hplace with ⟨t, ht, ha, hb⟩ | ⟨ha, hb⟩
    · obtain ⟨-, rfl⟩ := Backs.eq_of_mem_section h hs ht ha hp
      obtain ⟨-, rfl⟩ := Backs.eq_of_mem_section h hs ht hb hq
      have hastart := ha.1
      have hbstart := hb.1
      omega
    · obtain rfl := Backs.eq_of_gapAt h hs ha hp
      obtain rfl := Backs.eq_of_gapAt h hs hb hq
      have hastart := ha.1.1
      have hbstart := hb.1.1
      omega

/-- **One byte of the file is behind two addresses only on account of a displaced section**: one of
the addresses lies in the section and the other in no section of the same segment. -/
theorem fileOffset_eq_iff_displaced {a b p q : Nat} (hab : a ≠ b)
    (ha : space.fileOffset a = .ok p) (hb : space.fileOffset b = .ok q) :
    p = q ↔ ∃ s ∈ space.segments, s.Shares a b ∨ s.Shares b a := by
  have hap := (fileOffset_eq_ok_iff_backs h).1 ha
  have hbq := (fileOffset_eq_ok_iff_backs h).1 hb
  constructor
  · rintro rfl
    -- The byte is in the file range of one segment only, so both addresses lie in this one.
    obtain ⟨s, hs, hamem, hafile⟩ := Backs.exists_mem_file h hap
    obtain ⟨s', hs', hbmem, hbfile⟩ := Backs.exists_mem_file h hbq
    obtain rfl := segment_eq_of_mem_file h hs hs' hafile hbfile
    refine ⟨s, hs, ?_⟩
    rcases Backs.cases_of_mem h hs hamem hap with ⟨t, ht, hat, hpt, hp⟩ | ⟨hgap, hp⟩
    · rcases Backs.cases_of_mem h hs hbmem hbq with ⟨t', ht', hbt', hpt', hp'⟩ | ⟨hgap', hp'⟩
      · obtain rfl := eq_of_not_apart (sections_apart h hs) ht ht'
          (Footprint.not_apart_of_file (a := t.footprint) (b := t'.footprint) hpt hpt')
        have hastart := hat.1
        have hbstart := hbt'.1
        omega
      · exact .inl (Segment.shares_of_eq ht hat hgap' (hp.symm.trans hp'))
    · rcases Backs.cases_of_mem h hs hbmem hbq with ⟨t', ht', hbt', -, hp'⟩ | ⟨hgap', hp'⟩
      · exact .inr (Segment.shares_of_eq ht' hbt' hgap (hp'.symm.trans hp))
      · have hastart := hgap.1.1
        have hbstart := hgap'.1.1
        omega
  · rintro ⟨s, hs, ⟨t, ht, -, haddress, hgap, heq⟩ | ⟨t, ht, -, haddress, hgap, heq⟩⟩
    · rw [(Backs.eq_of_mem_section h hs ht haddress hap).2, Backs.eq_of_gapAt h hs hgap hbq, heq]
    · rw [(Backs.eq_of_mem_section h hs ht haddress hbq).2, Backs.eq_of_gapAt h hs hgap hap, heq]

end Build

/-- A segment of 48 bytes, of which the file holds 40.  The bytes of its first section come first in
the file, but not in memory; its second section is filled with zeros. -/
def mixedCommand : SegmentCommand where
  name := "__DATA"
  address := 0x1000
  memorySize := 48
  fileOffset := 0
  fileSize := 40
  maxProtection := 7
  initProtection := 3
  sectionCount := 2
  flags := 0
  sections := [⟨"__data", "__DATA", 0x1010, 16, 0, 0, 0, 0, 0, 0, 0⟩,
    ⟨"__bss", "__DATA", 0x1020, 4, 0, 0, 0, 0, 1, 0, 0⟩]

/-- Of the segment, an address of the first section, one of the second, one behind both, and one in
the end that the file does not fill. -/
theorem fileOffset_classifies_mixed :
    ∃ space, build .bits64 48 [mixedCommand] = .ok space ∧
      (8 < 48 ∧ 8 < UInt64.size ∧ ∀ s ∈ space.segments, 0x1018 ∈ s.memory →
        8 ∈ s.file ∧ ∀ t ∈ s.sections, 0x1018 ∈ t.memory → 8 ∈ t.file) ∧
      (¬∃ p, space.fileOffset 0x1020 = .ok p) ∧ (∃ p, space.fileOffset 0x1024 = .ok p) ∧
      ¬∃ p, space.fileOffset 0x1028 = .ok p := by
  obtain ⟨space, hspace, hfirst, hsecond, hgap, htail⟩ : ∃ space,
      build .bits64 48 [mixedCommand] = .ok space ∧ space.fileOffset 0x1018 = .ok 8 ∧
        (∀ s ∈ space.segments, (∀ t ∈ s.sections, 0x1020 ∈ t.memory → t.kind.isZeroFill) ∧
          ∃ t ∈ s.sections, 0x1020 ∈ t.memory) ∧
        (∃ s ∈ space.segments, 0x1024 ∈ s.memory ∧ (∀ t ∈ s.sections, 0x1024 ∉ t.memory) ∧
          0x1024 - s.memory.start < s.file.size) ∧
        ∀ s ∈ space.segments, (∀ t ∈ s.sections, 0x1028 ∉ t.memory) ∧
          s.file.size ≤ 0x1028 - s.memory.start :=
    ⟨_, rfl, by decide +kernel, by decide +kernel, by decide +kernel, by decide +kernel⟩
  refine ⟨space, hspace, (fileOffset_classifies hspace 0x1018).2.1 8 hfirst, fun h => ?_,
    (fileOffset_classifies hspace 0x1024).1.2 ?_, fun h => ?_⟩
  · obtain ⟨s, hs, -, ⟨t, ht, hmem, hkind⟩ | ⟨hnone, -⟩⟩ :=
      (fileOffset_classifies hspace 0x1020).1.1 h
    · exact hkind ((hsecond s hs).1 t ht hmem)
    · obtain ⟨t, ht, hmem⟩ := (hsecond s hs).2
      exact hnone t ht hmem
  · obtain ⟨s, hs, hmem, hplace⟩ := hgap
    exact ⟨s, hs, hmem, .inr hplace⟩
  · obtain ⟨s, hs, -, ⟨t, ht, hmem, -⟩ | ⟨-, hdistance⟩⟩ :=
      (fileOffset_classifies hspace 0x1028).1.1 h
    · exact (htail s hs).1 t ht hmem
    · exact absurd hdistance (Nat.not_lt.2 (htail s hs).2)

/-- The first byte of the file is behind the start of the segment and behind that of its first
section. -/
theorem fileOffset_not_injective :
    ∃ space, build .bits64 48 [mixedCommand] = .ok space ∧ space.fileOffset 0x1000 = .ok 0 ∧
      space.fileOffset 0x1010 = .ok 0 := ⟨_, rfl, by decide +kernel, by decide +kernel⟩

/-- The two addresses with one byte, and two others with two. -/
theorem fileOffset_eq_iff_displaced_mixed :
    ∃ space, build .bits64 48 [mixedCommand] = .ok space ∧
      (∃ s ∈ space.segments, s.Shares 0x1000 0x1010 ∨ s.Shares 0x1010 0x1000) ∧
      ¬∃ s ∈ space.segments, s.Shares 0x1008 0x1010 ∨ s.Shares 0x1010 0x1008 := by
  obtain ⟨space, hspace, hstart, hnext, hsection⟩ : ∃ space,
      build .bits64 48 [mixedCommand] = .ok space ∧ space.fileOffset 0x1000 = .ok 0 ∧
        space.fileOffset 0x1008 = .ok 8 ∧ space.fileOffset 0x1010 = .ok 0 :=
    ⟨_, rfl, by decide +kernel, by decide +kernel, by decide +kernel⟩
  exact ⟨space, hspace,
    (fileOffset_eq_iff_displaced hspace (by decide) hstart hsection).1 rfl,
    fun h => absurd ((fileOffset_eq_iff_displaced hspace (by decide) hnext hsection).2 h)
      (by decide)⟩

end AddressSpace

end MachO
