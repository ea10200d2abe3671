import MachO.Proofs.Agreement
import MachO.Proofs.Fat
import MachO.Summary

/-!
# Slices do not touch each other

* `FatArchive.read_congr`: whether an archive is accepted depends on its table and its length only;
* `FatArchive.Sound.table_apart`, `FatArchive.Sound.apart_of_ne`: no byte of a slice is one of the
  table or of another slice;
* `FatArchive.summaries_isolated`: other bytes in one slice do not change the summaries of the others.
-/

namespace MachO

variable {a b : Bytes}

/-! ### The table -/

theorem Arch.at_congr {w : Width} {pos : Nat} (h : Bytes.AgreeOn ⟨pos, w.archSize⟩ a b) :
    Arch.at w b pos = Arch.at w a pos := by
  have hsize : 8 + w.pointerSize + w.pointerSize + 4 ≤ w.archSize := by cases w <;> decide
  unfold Arch.at
  congr 1
  · exact (h.wordAt_eq (by omega) (by omega) .big).symm
  · exact (h.wordAt_eq (by omega) (by omega) .big).symm
  · exact (h.addressAt_eq (by omega) (by omega) .big).symm
  · exact (h.addressAt_eq (by omega) (by omega) .big).symm
  · exact (h.wordAt_eq (by omega) (by omega) .big).symm

namespace FatArchive

variable {width : Width} {count : Nat}

theorem entries_congr (h : Bytes.AgreeOn ⟨0, tableEnd width count⟩ a b) :
    entries b width count = entries a width count := by
  unfold entries
  apply List.map_congr_left
  intro i hi
  have hi : i + 1 ≤ count := List.mem_range.1 hi
  have hstop : (i + 1) * width.archSize ≤ count * width.archSize := Nat.mul_le_mul_right _ hi
  rw [Nat.succ_mul] at hstop
  apply Arch.at_congr
  apply h.part (Nat.zero_le _)
  unfold tableEnd
  omega

theorem Announces.congr (h : Announces a width count) (hlength : a.length = b.length)
    (hagree : Bytes.AgreeOn ⟨0, tableEnd width count⟩ a b) : Announces b width count := by
  have hheader : headerSize ≤ 0 + tableEnd width count := by
    unfold tableEnd
    omega
  have hword {pos : Nat} (hpos : pos + 4 ≤ headerSize) :
      Endian.big.wordAt b pos = Endian.big.wordAt a pos :=
    (hagree.wordAt_eq (Nat.zero_le pos) (hpos.trans hheader) .big).symm
  refine ⟨?_, ?_, hlength ▸ h.table_le⟩
  · rw [hword (by decide), h.magic_eq]
  · rw [hword (by decide), h.count_eq]

/-- **Whether an archive is accepted depends on its table and its length only.** -/
theorem read_congr {archive : FatArchive} (hread : read a = .ok archive)
    (hlength : a.length = b.length)
    (h : Bytes.AgreeOn ⟨0, tableEnd archive.width archive.arches.length⟩ a b) :
    read b = .ok { archive with data := b } := by
  obtain ⟨width, count, hannounces, hsound, rfl⟩ := read_eq_ok_iff.1 hread
  rw [length_entries] at h
  have hentries := entries_congr h
  refine read_eq_ok_iff.2 ⟨width, count, hannounces.congr hlength h, ?_, ?_⟩
  · rw [hentries, ← hlength]
    exact hsound
  · rw [hentries]

/-! ### Slices -/

variable {archive : FatArchive} {budget : Budget} {arches : List Arch} {arch other : Arch}
  {fileSize i j : Nat}

/-- No byte of the table is one of a slice. -/
theorem Sound.table_apart (h : Sound (tableEnd width count) fileSize arches) (harch : arch ∈ arches) :
    ByteRange.Apart ⟨0, tableEnd width count⟩ arch.range := by
  intro p htable hslice
  obtain ⟨hstart, hstop⟩ : arch.offset.toNat ≤ p ∧ p < arch.offset.toNat + arch.size.toNat := hslice
  have hbehind := (h.valid arch harch).behind (by omega)
  have hlt : p < 0 + tableEnd width count := htable.2
  omega

/-- The slices of two entries have no byte in common. -/
theorem Sound.apart_of_ne (h : Sound (tableEnd width count) fileSize arches) (hne : i ≠ j)
    (hi : arches[i]? = some arch) (hj : arches[j]? = some other) : other.range.Apart arch.range := by
  obtain ⟨hi', rfl⟩ := List.getElem?_eq_some_iff.1 hi
  obtain ⟨hj', rfl⟩ := List.getElem?_eq_some_iff.1 hj
  have hapart := List.pairwise_iff_getElem.1 h.apart
  rcases Nat.lt_or_gt_of_ne hne with hlt | hlt
  · exact (hapart i j hi' hj' hlt).symm
  · exact hapart j i hj' hi' hlt

theorem getElem?_summaries (archive : FatArchive) (budget : Budget) (j : Nat) :
    (archive.summaries budget)[j]? = archive.arches[j]?.map fun arch =>
      ⟨arch, archive.slice arch >>= fun bytes => ImageSummary.read bytes budget⟩ :=
  List.getElem?_map

/-- Archives with the same bytes in a slice have the same slice. -/
theorem slice_congr {archive' : FatArchive} (hlength : archive.data.length = archive'.data.length)
    (h : Bytes.AgreeOn arch.range archive.data archive'.data) :
    archive'.slice arch = archive.slice arch := by
  have hslice : archive.data.slice? arch.range.start arch.range.size =
      archive'.data.slice? arch.range.start arch.range.size := Bytes.AgreeOn.slice?_eq h hlength
  exact congrArg (expect · _) hslice.symm

/-- **The summary of a slice is that of its own bytes**, whatever the bytes of the other slices are.
When bytes of one slice are others, the archive is still accepted, with the same table, and the
summaries of all other slices are the same. -/
theorem summaries_isolated (data : Bytes) (archive : FatArchive) (hread : read data = .ok archive)
    (budget : Budget) :
    (archive.summaries budget).length = archive.arches.length ∧
    (∀ (j : Nat) (arch : Arch), archive.arches[j]? = some arch →
      ∃ bytes, data.slice? arch.offset.toNat arch.size.toNat = some bytes ∧
        (archive.summaries budget)[j]? = some ⟨arch, ImageSummary.read bytes budget⟩) ∧
    ∀ (i : Nat) (arch : Arch) (data' : Bytes), archive.arches[i]? = some arch →
      data'.length = data.length → (∀ p, p ∉ arch.range → data'[p]? = data[p]?) →
      ∃ archive', read data' = .ok archive' ∧ archive'.width = archive.width ∧
        archive'.arches = archive.arches ∧
        ∀ j, j ≠ i → (archive'.summaries budget)[j]? = (archive.summaries budget)[j]? := by
  obtain ⟨width, count, -, hsound, rfl⟩ := read_eq_ok_iff.1 hread
  refine ⟨List.length_map _, fun j arch harch => ?_, fun i arch data' harch hlength hsame => ?_⟩
  · have hvalid := hsound.valid arch (List.mem_of_getElem? harch)
    obtain ⟨bytes, hbytes⟩ : ∃ bytes, data.slice? arch.offset.toNat arch.size.toNat = some bytes :=
      ⟨_, Bytes.slice?_eq_some_iff.2 ⟨hvalid.inside, rfl⟩⟩
    refine ⟨bytes, hbytes, ?_⟩
    have hslice : slice ⟨data, width, entries data width count⟩ arch = .ok bytes :=
      expect_eq_ok_iff.2 hbytes
    rw [getElem?_summaries, harch, Option.map_some, hslice, ok_bind]
  · have hagree {r : ByteRange} (hr : r.Apart arch.range) : Bytes.AgreeOn r data data' :=
      fun p hp => (hsame p (hr p hp)).symm
    have htable := hagree (hsound.table_apart (List.mem_of_getElem? harch))
    have hread' : read data' = .ok ⟨data', width, entries data width count⟩ :=
      read_congr hread hlength.symm (by rwa [length_entries])
    refine ⟨_, hread', rfl, rfl, fun j hne => ?_⟩
    rw [getElem?_summaries, getElem?_summaries]
    cases hj : (entries data width count)[j]? with
    | none => rfl
    | some other =>
      have hother : Bytes.AgreeOn other.range data data' :=
        hagree (hsound.apart_of_ne hne.symm harch hj)
      have hslice : slice ⟨data', width, entries data width count⟩ other =
          slice ⟨data, width, entries data width count⟩ other := slice_congr hlength.symm hother
      rw [Option.map_some, Option.map_some, hslice]

/-- Two slices, of which the second one is made an image by other bytes.  The summary of the first one
is the same. -/
theorem summaries_isolated_two :
    let entry (offset size align : UInt8) : Bytes :=
      [0, 0, 0, 7, 0, 0, 0, 3, 0, 0, 0, offset, 0, 0, 0, size, 0, 0, 0, align]
    let image : Bytes := [0xce, 0xfa, 0xed, 0xfe] ++ List.replicate 24 0
    let bytes (slice : Bytes) : Bytes :=
      [0xca, 0xfe, 0xba, 0xbe, 0, 0, 0, 2] ++ entry 48 28 4 ++ entry 76 28 2 ++ image ++ slice
    let data := bytes (List.replicate 28 0)
    let data' := bytes image
    let second : Arch := ⟨7, 3, 76, 28, 2⟩
    let archive : FatArchive := ⟨data, .bits32, [⟨7, 3, 48, 28, 4⟩, second]⟩
    read data = .ok archive ∧ data'.length = data.length ∧
      (∀ p, p ∉ second.range → data'[p]? = data[p]?) ∧
      (archive.summaries {})[1]? = some ⟨second, .error (.unknownMagic 0)⟩ ∧
      ∃ archive', read data' = .ok archive' ∧ archive'.arches = archive.arches ∧
        (archive'.summaries {})[0]? = (archive.summaries {})[0]? := by
  intro entry image bytes data data' second archive
  have hread : read data = .ok archive := by decide +kernel
  have hlength : data'.length = data.length := by decide +kernel
  have hfront : Bytes.AgreeOn ⟨0, 76⟩ data' data := by decide +kernel
  have hsame (p : Nat) (hp : p ∉ second.range) : data'[p]? = data[p]? := by
    by_cases hlt : p < 76
    · exact hfront p ⟨Nat.zero_le p, hlt.trans_eq (Nat.zero_add 76).symm⟩
    · have hle : 104 ≤ p := by
        by_contra hgt
        exact hp ⟨Nat.le_of_not_lt hlt, Nat.lt_of_not_le hgt⟩
      rw [List.getElem?_eq_none hle, List.getElem?_eq_none hle]
  obtain ⟨-, hsummary, hisolated⟩ := summaries_isolated data archive hread {}
  obtain ⟨slice, hslice, hsecond⟩ := hsummary 1 second rfl
  obtain ⟨archive', hread', -, harches, hothers⟩ := hisolated 1 second data' rfl hlength hsame
  have hzeros : data.slice? 76 28 = some (List.replicate 28 0) := by decide +kernel
  have herror : ImageSummary.read (List.replicate 28 0) {} = .error (.unknownMagic 0) := by
    decide +kernel
  cases hzeros.symm.trans hslice
  rw [herror] at hsecond
  exact ⟨hread, hlength, hsame, hsecond, archive', hread', harches, hothers 0 (by decide)⟩

end FatArchive

end MachO
