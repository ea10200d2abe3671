import MachO.Image
import MachO.Proofs.Bind.Actions
import MachO.Proofs.Rebase.Actions

/-!
# Actions stay inside segments

* `Image.length_lt_of_ordinalName?`: which ordinals have no name;
* `actions_sound`: what holds of the actions of all streams in an address space that was built.
-/

namespace MachO

/-- An ordinal without a name is one of no library, if it is not below those for special
look-ups. -/
theorem Image.length_lt_of_ordinalName? {image : Image} {ordinal : Int} (hordinal : -3 ≤ ordinal)
    (h : image.ordinalName? ordinal = none) : (image.dylibs.length : Int) < ordinal := by
  cases ordinal with
  | ofNat n =>
    cases n with
    | zero => cases h
    | succ n =>
      have hlength : image.dylibs.length ≤ n :=
        List.getElem?_eq_none_iff.1 (Option.map_eq_none_iff.1 h)
      exact Int.ofNat_lt.2 (Nat.lt_succ_of_le hlength)
  | negSucc n =>
    have hspecial : n = 0 ∨ n = 1 ∨ n = 2 := by omega
    rcases hspecial with rfl | rfl | rfl <;> cases h

/-- **Every action of a stream is about a place in a segment**, has the position of an opcode that
emits, and if it binds, has a symbol with a name and an ordinal, whether the stream fails later or
not. -/
theorem actions_sound {width : Width} {imageSize : Nat} {commands : List SegmentCommand}
    {space : AddressSpace} (h : AddressSpace.build width imageSize commands = .ok space)
    (bytes : Bytes) (kind : Bind.StreamKind) (image : Option (Bytes × Endian))
    (limit : Option Nat) :
    (∀ a, .ok a ∈ Source.toList (Bind.stream kind bytes ⟨space, image⟩ limit) →
        a.Sound space bytes ∧
          ∀ image : Image, image.ordinalName? a.ordinal = none →
            (image.dylibs.length : Int) < a.ordinal) ∧
      ∀ a, .ok a ∈ Source.toList (Rebase.stream bytes space limit) → a.Sound space bytes := by
  have hapart := AddressSpace.footprints_apart h
  constructor
  · intro a ha
    have hsound := Bind.sound_of_mem_toList hapart ha
    exact ⟨hsound, fun _ => Image.length_lt_of_ordinalName? hsound.ordinal⟩
  · exact fun a ha => Rebase.sound_of_mem_toList hapart ha

/-- A segment of 32 bytes. -/
def exampleCommand : SegmentCommand where
  name := "__DATA"
  address := 0x1000
  memorySize := 32
  fileOffset := 0
  fileSize := 32
  maxProtection := 7
  initProtection := 3
  sectionCount := 0
  flags := 0
  sections := []

/-- The address space of the segment. -/
def exampleSpace : AddressSpace where
  width := .bits64
  segments := [{
    name := "__DATA"
    file := ⟨0, 32⟩
    memory := ⟨0x1000, 32⟩
    maxProtection := ⟨true, true, true⟩
    initProtection := ⟨true, true, false⟩
    flags := 0
    sections := [] }]

/-- One bind, to the symbol `_a` of the first library, is sound. -/
theorem actions_sound_example :
    let bytes : Bytes := [0x11, 0x40, 95, 97, 0, 0x51, 0x70, 8, 0x90, 0]
    let a : Bind.Action := ⟨0, 8, 0x1008, "_a", 1, .pointer, 0, 0, 8⟩
    AddressSpace.build .bits64 32 [exampleCommand] = .ok exampleSpace ∧
      Source.toList (Bind.stream .normal bytes ⟨exampleSpace, none⟩ none) = [.ok a] ∧
      a.Sound exampleSpace bytes := by
  intro bytes a
  have hbuild : AddressSpace.build .bits64 32 [exampleCommand] = .ok exampleSpace := rfl
  have hlist : Source.toList (Bind.stream .normal bytes ⟨exampleSpace, none⟩ none) = [.ok a] := by
    decide +kernel
  refine ⟨hbuild, hlist, ((actions_sound hbuild bytes .normal none none).1 a ?_).1⟩
  rw [hlist]
  exact List.mem_singleton_self _

end MachO
