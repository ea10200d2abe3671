import MachO.Proofs.Actions
import MachO.Proofs.Stream.Dedup

/-!
# No slot twice

* `AddressSpace.IsSlot.address_eq_iff`: places in segments have the same address only if they are the
  same place;
* `Bind.Action.place`, `Rebase.Action.place`: where a slot is;
* `dedup_streams`: the actions of a stream are drawn up to the first slot that occurs twice.
-/

namespace MachO

open Source (values)

/-- A place has one address, and an address belongs to one place. -/
theorem AddressSpace.IsSlot.address_eq_iff {space : AddressSpace}
    {index offset address index' offset' address' : Nat} (h : space.IsSlot index offset address)
    (h' : space.IsSlot index' offset' address') :
    address = address' ↔ (index, offset) = (index', offset') := by
  obtain ⟨s, hs, -, rfl, -, hfound⟩ := h
  obtain ⟨s', hs', -, rfl, -, hfound'⟩ := h'
  rw [Prod.mk.injEq]
  constructor
  · -- The segment that is found for the address is that of both places.
    intro heq
    rw [heq, hfound', Option.some.injEq, Prod.mk.injEq] at hfound
    obtain ⟨rfl, rfl⟩ := hfound
    exact ⟨rfl, Nat.add_left_cancel heq⟩
  · rintro ⟨rfl, rfl⟩
    rw [hs, Option.some.injEq] at hs'
    rw [hs']

/-- The segment of the slot, and its place there. -/
def Bind.Action.place (a : Bind.Action) : Nat × Nat := (a.segment, a.offset)

/-- The segment of the slot, and its place there. -/
def Rebase.Action.place (a : Rebase.Action) : Nat × Nat := (a.segment, a.offset)

/-- **The actions of a stream are drawn up to the first slot that occurs twice**, whatever its address
space, its bytes and its limit are.  In place of that action there is a failure with its address, and
then nothing any more.  When no slot occurs twice, nothing changes.  So no two actions that are drawn
have the same address, and actions have the same address just when they are about the same place in
the same segment. -/
theorem dedup_streams {width : Width} {imageSize : Nat} {commands : List SegmentCommand}
    {space : AddressSpace} (h : AddressSpace.build width imageSize commands = .ok space)
    (bytes : Bytes) (kind : Bind.StreamKind) (image : Option (Bytes × Endian))
    (limit : Option Nat) :
    Dedup.StopsAtRepeat (Bind.stream kind bytes ⟨space, image⟩ limit) Bind.Action.place ∧
      Dedup.StopsAtRepeat (Rebase.stream bytes space limit) Rebase.Action.place := by
  have hapart := AddressSpace.footprints_apart h
  constructor
  · have hslot : ∀ a ∈ values (Bind.stream kind bytes ⟨space, image⟩ limit),
        space.IsSlot a.segment a.offset a.address := fun a ha =>
      (Bind.sound_of_mem_toList hapart (Source.mem_values_iff.1 ha)).slot
    exact Dedup.stopsAtRepeat fun a ha b hb => (hslot a ha).address_eq_iff (hslot b hb)
  · have hslot : ∀ a ∈ values (Rebase.stream bytes space limit),
        space.IsSlot a.segment a.offset a.address := fun a ha =>
      (Rebase.sound_of_mem_toList hapart (Source.mem_values_iff.1 ha)).slot
    exact Dedup.stopsAtRepeat fun a ha b hb => (hslot a ha).address_eq_iff (hslot b hb)

/-- The slot at offset 16 is moved to a second time, behind which there is another action. -/
theorem dedup_streams_repeat :
    let bytes : Bytes := [0x11, 0x20, 8, 0x52, 0x20, 16, 0x52]
    let s := Rebase.stream bytes exampleSpace none
    let a (offset position : Nat) : Rebase.Action := ⟨0, offset, 0x1000 + offset, .pointer, position⟩
    AddressSpace.build .bits64 32 [exampleCommand] = .ok exampleSpace ∧
      values s = [a 8 3, a 16 3, a 16 6, a 24 6] ∧
      Source.toList (Dedup.ofSource s) =
        [.ok (a 8 3), .ok (a 16 3), .error (.boundTwice 0x1010)] := by
  intro bytes s a
  have hbuild : AddressSpace.build .bits64 32 [exampleCommand] = .ok exampleSpace := rfl
  have hvalues : values s = [a 8 3, a 16 3, a 16 6, a 24 6] := by decide +kernel
  have hrepeat : FirstRepeat Rebase.Action.place [a 8 3, a 16 3] (a 16 6) :=
    ⟨by decide, by decide⟩
  have hstops := (dedup_streams hbuild bytes .normal none none).2
  exact ⟨hbuild, hvalues, hstops.toList_of_repeat _ _ [a 24 6] hvalues hrepeat⟩

end MachO
