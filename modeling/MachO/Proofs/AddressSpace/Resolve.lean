import MachO.Opcode.Registers
import MachO.Proofs.AddressSpace.Accepted

/-!
# Addresses of places in segments

* `AddressSpace.segmentContaining?_eq`: in an address space that was built, every address lies in at
  most one segment;
* `AddressSpace.FitsWidth`: all addresses of segments are within the address limit, as
  `AddressSpace.fitsWidth_of_build` tells;
* `AddressSpace.IsSlot`: a place in a segment, with its address;
* `AddressSpace.places_addresses_correspond`: each place in a segment has an address, and each
  address that lies in a segment is that of one place;
* `Registers.isSlot_of_target`: a write goes to such a place.
-/

namespace MachO

namespace AddressSpace

variable {space : AddressSpace}

/-- The segment that is found for an address is any one in which the address lies. -/
theorem segmentContaining?_eq (hapart : space.footprints.Pairwise Footprint.Apart) {index : Nat}
    {s : Segment} (hs : space.segments[index]? = some s) {address : Nat}
    (haddress : address ∈ s.memory) : space.segmentContaining? address = some (index, s) := by
  obtain ⟨hindex, rfl⟩ := List.getElem?_eq_some_iff.1 hs
  have hfirst :
      space.segments.findIdx (fun s => decide (address ∈ s.memory)) = index := by
    rw [List.findIdx_eq hindex]
    refine ⟨decide_eq_true haddress, fun j hj => decide_eq_false fun hmem => ?_⟩
    -- A segment in front of it that holds the address would not be apart from it.
    unfold footprints at hapart
    rw [List.pairwise_map, List.pairwise_iff_getElem] at hapart
    exact (hapart j index _ hindex hj).2 address hmem haddress
  unfold segmentContaining?
  dsimp only
  rw [hfirst, hs]
  rfl

/-- An address lies in the segment that is found for it. -/
theorem mem_memory_of_segmentContaining? {address index : Nat} {s : Segment}
    (h : space.segmentContaining? address = some (index, s)) :
    space.segments[index]? = some s ∧ address ∈ s.memory := by
  obtain ⟨s', hs', heq⟩ := Option.map_eq_some_iff.1 h
  obtain ⟨rfl, rfl⟩ := Prod.mk.inj heq
  refine ⟨hs', ?_⟩
  obtain ⟨hindex, rfl⟩ := List.getElem?_eq_some_iff.1 hs'
  exact of_decide_eq_true (List.findIdx_getElem (w := hindex))

theorem resolve_eq_ok_iff {index offset address : Nat} :
    space.resolve index offset = .ok address ↔
      ∃ s, space.segments[index]? = some s ∧ offset < s.memory.size ∧
        s.memory.start + offset < space.width.span ∧ address = s.memory.start + offset := by
  unfold resolve
  cases hs : space.segments[index]? with
  | none => simp
  | some s =>
    dsimp only
    split
    · rename_i h
      simp [h, eq_comm]
    · rename_i h
      simp only [reduceCtorEq, Option.some.injEq, exists_eq_left', false_iff]
      exact fun h' => h ⟨h'.1, h'.2.1⟩

/-- No segment that has an address ends behind the address limit. -/
def FitsWidth (space : AddressSpace) : Prop :=
  ∀ s ∈ space.segments, ¬s.memory.IsEmpty → s.memory.stop ≤ space.width.span

/-- What holds of every segment that is placed holds of all segments. -/
theorem forall_segments_of_extend {imageSize : Nat} {commands : List SegmentCommand}
    {space' : AddressSpace} {P : Segment → Prop}
    (hplace : ∀ {before : AddressSpace} {command : SegmentCommand} {s : Segment},
      before.width = space.width → before.place imageSize command = .ok s → P s)
    (hspace : ∀ s ∈ space.segments, P s) (h : extend imageSize space commands = .ok space') :
    ∀ s ∈ space'.segments, P s := by
  induction commands generalizing space with
  | nil =>
    cases h
    exact hspace
  | cons command commands ih =>
    cases hfirst : space.place imageSize command with
    | error e =>
      rw [extend_cons_of_error hfirst] at h
      cases h
    | ok segment =>
      rw [extend_cons_of_ok hfirst] at h
      have hpush : ∀ s ∈ (space.push segment).segments, P s :=
        List.forall_mem_append.2 ⟨hspace, List.forall_mem_singleton.2 (hplace rfl hfirst)⟩
      refine ih ?_ hpush h
      exact hplace

/-- Every segment of an address space that was built is that of a valid load command, and so are its
sections. -/
theorem exists_valid_of_build {width : Width} {imageSize : Nat} {commands : List SegmentCommand}
    (h : build width imageSize commands = .ok space) :
    ∀ s ∈ space.segments, ∃ command, SegmentCommand.Valid space.width imageSize command ∧
      s.footprint = command.footprint ∧
      s.sections.map Section.footprint = command.sections.map SectionHeader.footprint := by
  have hwidth : space.width = width := (footprints_of_build h).1
  refine forall_segments_of_extend (fun hbefore hplace => ?_) (List.forall_mem_nil _) h
  obtain ⟨hvalid, -, hfootprint, hsections⟩ := place_eq_ok hplace
  rw [hbefore] at hvalid
  exact ⟨_, hwidth ▸ hvalid, hfootprint, hsections⟩

theorem fitsWidth_of_build {width : Width} {imageSize : Nat} {commands : List SegmentCommand}
    (h : build width imageSize commands = .ok space) : space.FitsWidth := by
  intro s hs
  obtain ⟨command, hvalid, heq, -⟩ := exists_valid_of_build h s hs
  have hspan := hvalid.memory_le_span
  rw [← heq] at hspan
  exact hspan

/-- The end of a segment of an address space that was built is a number of 64 bits. -/
theorem stop_lt_of_build {width : Width} {imageSize : Nat} {commands : List SegmentCommand}
    (h : build width imageSize commands = .ok space) {s : Segment} (hs : s ∈ space.segments) :
    s.memory.stop < UInt64.size := by
  obtain ⟨command, hvalid, heq, -⟩ := exists_valid_of_build h s hs
  have hlt := hvalid.memory_lt
  rw [← heq] at hlt
  exact hlt

theorem FitsWidth.address_lt (hfits : space.FitsWidth) {s : Segment} (hs : s ∈ space.segments)
    {offset : Nat} (hoffset : offset < s.memory.size) :
    s.memory.start + offset < space.width.span := by
  have hstop := hfits s hs (ByteRange.not_isEmpty_of_pos (by omega))
  unfold ByteRange.stop at hstop
  omega

/-- The place `offset` bytes into a segment lies in it, has an address of the pointer size, and its
segment is the one that is found for that address. -/
def IsSlot (space : AddressSpace) (index offset address : Nat) : Prop :=
  ∃ s, space.segments[index]? = some s ∧ offset < s.memory.size ∧
    address = s.memory.start + offset ∧ address < space.width.span ∧
      space.segmentContaining? address = some (index, s)

theorem isSlot_of_resolve (hapart : space.footprints.Pairwise Footprint.Apart)
    {index offset address : Nat} (h : space.resolve index offset = .ok address) :
    space.IsSlot index offset address := by
  obtain ⟨s, hs, hoffset, hspan, rfl⟩ := resolve_eq_ok_iff.1 h
  refine ⟨s, hs, hoffset, rfl, hspan, segmentContaining?_eq hapart hs ?_⟩
  rw [ByteRange.mem_iff]
  unfold ByteRange.stop
  omega

/-! ### Places and addresses -/

section Build

variable {width : Width} {imageSize : Nat} {commands : List SegmentCommand}
  (h : build width imageSize commands = .ok space)
include h

/-- Only the end of its segment limits the places that have an address. -/
theorem exists_resolve_iff {index offset : Nat} :
    (∃ address, space.resolve index offset = .ok address) ↔
      ∃ s, space.segments[index]? = some s ∧ offset < s.memory.size := by
  constructor
  · rintro ⟨address, haddress⟩
    obtain ⟨s, hs, hoffset, -⟩ := resolve_eq_ok_iff.1 haddress
    exact ⟨s, hs, hoffset⟩
  · rintro ⟨s, hs, hoffset⟩
    have hspan := (fitsWidth_of_build h).address_lt (List.mem_of_getElem? hs) hoffset
    exact ⟨_, resolve_eq_ok_iff.2 ⟨s, hs, hoffset, hspan, rfl⟩⟩

/-- A place without an address is in no segment, or behind the end of one.  No address is too large
for the pointer size. -/
theorem resolve_eq_error {index offset : Nat} {e : DecodeError}
    (herror : space.resolve index offset = .error e) :
    (space.segments.length ≤ index ∧ e = .noSuchSegment index space.segments.length) ∨
      ∃ s, space.segments[index]? = some s ∧ s.memory.size ≤ offset ∧
        e = .offsetOutside index offset := by
  cases hs : space.segments[index]? with
  | none =>
    unfold resolve at herror
    rw [hs] at herror
    cases herror
    exact .inl ⟨List.getElem?_eq_none_iff.1 hs, rfl⟩
  | some s =>
    refine .inr ⟨s, rfl, ?_, ?_⟩
    · by_contra hoffset
      obtain ⟨address, hok⟩ := (exists_resolve_iff h).2 ⟨s, hs, Nat.lt_of_not_le hoffset⟩
      cases hok.symm.trans herror
    · unfold resolve at herror
      rw [hs] at herror
      dsimp only at herror
      split at herror <;> cases herror
      rfl

/-- **Places in segments and addresses that lie in segments correspond one to one.**  Every place
that is inside its segment has an address, which the pointer size allows, and at that address its
segment is found; no other place has this address; and every address in a segment is that of the
place as far behind the start of the segment. -/
theorem places_addresses_correspond :
    (∀ index offset, (∃ address, space.resolve index offset = .ok address) ↔
        ∃ s, space.segments[index]? = some s ∧ offset < s.memory.size) ∧
      (∀ index offset e, space.resolve index offset = .error e →
        (space.segments.length ≤ index ∧ e = .noSuchSegment index space.segments.length) ∨
          ∃ s, space.segments[index]? = some s ∧ s.memory.size ≤ offset ∧
            e = .offsetOutside index offset) ∧
      (∀ index offset address, space.resolve index offset = .ok address →
        ∃ s, space.segments[index]? = some s ∧ address = s.memory.start + offset ∧
          address < width.span ∧ space.segmentContaining? address = some (index, s)) ∧
      (∀ index offset index' offset' address, space.resolve index offset = .ok address →
        space.resolve index' offset' = .ok address → index = index' ∧ offset = offset') ∧
      ∀ address index s, space.segmentContaining? address = some (index, s) →
        s.memory.start ≤ address ∧
          space.resolve index (address - s.memory.start) = .ok address := by
  have hwidth : space.width = width := (footprints_of_build h).1
  have hslot {index offset address : Nat} (hresolve : space.resolve index offset = .ok address) :
      space.IsSlot index offset address := isSlot_of_resolve (footprints_apart h) hresolve
  refine ⟨fun index offset => exists_resolve_iff h, fun index offset e => resolve_eq_error h,
    fun index offset address hresolve => ?_,
    fun index offset index' offset' address hresolve hresolve' => ?_,
    fun address index s hfound => ?_⟩
  · obtain ⟨s, hs, -, haddress, hspan, hfound⟩ := hslot hresolve
    exact ⟨s, hs, haddress, hwidth ▸ hspan, hfound⟩
  · -- Both places are in the one segment that is found for the address.
    obtain ⟨s, -, -, haddress, -, hfound⟩ := hslot hresolve
    obtain ⟨s', -, -, haddress', -, hfound'⟩ := hslot hresolve'
    rw [hfound, Option.some.injEq, Prod.mk.injEq] at hfound'
    obtain ⟨rfl, rfl⟩ := hfound'
    exact ⟨rfl, Nat.add_left_cancel (haddress.symm.trans haddress')⟩
  · obtain ⟨hs, hstart, hstop⟩ := mem_memory_of_segmentContaining? hfound
    have hoffset : address - s.memory.start < s.memory.size := by
      unfold ByteRange.stop at hstop
      omega
    have hspan := (fitsWidth_of_build h).address_lt (List.mem_of_getElem? hs) hoffset
    rw [Nat.add_sub_of_le hstart] at hspan
    exact ⟨hstart, resolve_eq_ok_iff.2 ⟨s, hs, hoffset, by omega, by omega⟩⟩

end Build

/-- In an address space of 32 bits, the last address of a segment that ends at the address limit,
behind a segment without an address. -/
theorem places_addresses_correspond_at_limit :
    let empty : SegmentCommand := { exampleSegment 0 false with
      memorySize := 0, fileSize := 0, sections := [] }
    ∃ space, build .bits32 0x100000000 [empty, exampleSegment 0xffffffe0 false] = .ok space ∧
      space.resolve 1 31 = .ok 0xffffffff ∧
      (∃ s, space.segmentContaining? 0xffffffff = some (1, s)) ∧
      (∀ offset, ∃ e, space.resolve 0 offset = .error e) ∧
      ∀ index offset, space.resolve index offset = .ok 0xffffffff → index = 1 ∧ offset = 31 := by
  intro empty
  obtain ⟨space, hspace, hresolve, hempty⟩ : ∃ space,
      build .bits32 0x100000000 [empty, exampleSegment 0xffffffe0 false] = .ok space ∧
        space.resolve 1 31 = .ok 0xffffffff ∧
        space.segments[0]?.map (·.memory.size) = some 0 := ⟨_, rfl, by decide +kernel, rfl⟩
  obtain ⟨hexists, -, hfound, hunique, -⟩ := places_addresses_correspond hspace
  obtain ⟨s, -, -, -, hs⟩ := hfound _ _ _ hresolve
  refine ⟨space, hspace, hresolve, ⟨s, hs⟩, fun offset => ?_, fun index offset h =>
    hunique _ _ _ _ _ h hresolve⟩
  cases herror : space.resolve 0 offset with
  | error e => exact ⟨e, rfl⟩
  | ok address =>
    obtain ⟨s, hs, hoffset⟩ := (hexists 0 offset).1 ⟨address, herror⟩
    rw [hs, Option.map_some, Option.some.injEq] at hempty
    omega

end AddressSpace

/-! ### Registers that name a segment -/

theorem Registers.base_of_segment {space : AddressSpace} {r : Registers} {index : Nat} {s : Segment}
    (hsegment : r.segment = some index) (hs : space.segments[index]? = some s) :
    r.base space = s.memory.start := by
  unfold base
  rw [hsegment, Option.bind_some, hs]

section Room

variable {width : Width} {imageSize : Nat} {commands : List SegmentCommand} {space : AddressSpace}
  {index : Nat} {s : Segment}
  (h : AddressSpace.build width imageSize commands = .ok space)
  (hs : space.segments[index]? = some s)
include h hs

/-- Registers can hold all places of a segment, and the one behind the last of them. -/
theorem AddressSpace.room_of_build {offset : Nat} (hempty : ¬s.memory.IsEmpty)
    (hoffset : offset ≤ s.memory.size) :
    offset < UInt64.size ∧ s.memory.start + offset ≤ space.width.span := by
  have hmem := List.mem_of_getElem? hs
  have hstop := stop_lt_of_build h hmem
  have hspan := fitsWidth_of_build h s hmem hempty
  unfold ByteRange.stop at hstop hspan
  omega

/-- A move inside a segment, or to its end, succeeds. -/
theorem Registers.advance_of_le {r : Registers} {delta position : Nat}
    (hsegment : r.segment = some index) (hempty : ¬s.memory.IsEmpty)
    (hle : r.offset + delta ≤ s.memory.size) :
    advance space delta position r = .ok () { r with offset := r.offset + delta } := by
  have hroom := AddressSpace.room_of_build h hs hempty hle
  refine advance_eq_ok_iff.2 ⟨hroom.1, ?_, rfl⟩
  rw [base_of_segment hsegment hs]
  exact hroom.2

end Room

/-- Every place of a segment can be set. -/
theorem Registers.setSegment_inside {width : Width} {imageSize : Nat}
    {commands : List SegmentCommand} {space : AddressSpace} {index : UInt8} {s : Segment}
    (h : AddressSpace.build width imageSize commands = .ok space)
    (hs : space.segments[index.toNat]? = some s) (hempty : ¬s.memory.IsEmpty) {offset : Nat}
    (hle : offset ≤ s.memory.size) (position : Nat) (r : Registers) :
    setSegment space index offset position r =
      .ok () { r with segment := some index.toNat, offset } := by
  obtain ⟨hindex, -⟩ := List.getElem?_eq_some_iff.1 hs
  let start : Registers := { r with segment := some index.toNat, offset := 0 }
  rw [setSegment_of_lt hindex,
    advance_of_le h hs (r := start) rfl hempty (by rw [Nat.zero_add]; exact hle), Nat.zero_add]

/-- What is written is the current place, which has to lie in its segment. -/
theorem Registers.target_eq_ok_iff {space : AddressSpace} {r : Registers}
    {position index address : Nat} :
    r.target space position = .ok (index, address) ↔
      r.segment = some index ∧ space.resolve index r.offset = .ok address := by
  unfold target
  cases r.segment with
  | none => simp
  | some index' =>
    dsimp only
    cases hresolve : space.resolve index' r.offset with
    | error e =>
      refine ⟨nofun, ?_⟩
      rintro ⟨⟨⟩, h⟩
      cases hresolve.symm.trans h
    | ok address' =>
      constructor
      · rintro ⟨⟩
        exact ⟨rfl, hresolve⟩
      · rintro ⟨⟨⟩, h⟩
        cases hresolve.symm.trans h
        rfl

/-- The place that is written has an address. -/
theorem Registers.address_of_target {space : AddressSpace} {r : Registers}
    {position index address : Nat} (h : r.target space position = .ok (index, address)) :
    address = r.base space + r.offset ∧ address < space.width.span := by
  obtain ⟨hsegment, hresolve⟩ := target_eq_ok_iff.1 h
  obtain ⟨s, hs, -, hspan, rfl⟩ := AddressSpace.resolve_eq_ok_iff.1 hresolve
  rw [base_of_segment hsegment hs]
  exact ⟨rfl, hspan⟩

/-- A write goes to a place in a segment. -/
theorem Registers.isSlot_of_target {space : AddressSpace}
    (hapart : space.footprints.Pairwise Footprint.Apart) {r : Registers}
    {position index address : Nat} (h : r.target space position = .ok (index, address)) :
    space.IsSlot index r.offset address :=
  AddressSpace.isSlot_of_resolve hapart (target_eq_ok_iff.1 h).2

end MachO
