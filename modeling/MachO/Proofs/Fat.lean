import Mathlib.Data.List.Pairwise
import MachO.Fat
import MachO.Proofs.ByteRange
import MachO.Proofs.Fields

/-!
# Which fat archives are accepted

* `Arch.at`, `FatArchive.entries`: the entries of a table, as they stand in an archive;
* `FatArchive.Announces`: an archive begins with a magic number and the size of its table;
* `Arch.Valid`: what one entry has to be like;
* `FatArchive.checkAll_eq_ok_iff`: entries pass the checks if each is valid and no two slices share a
  byte;
* `FatArchive.read_iff_valid_apart`: an archive is accepted if its entries are so.
-/

namespace MachO

open ReadM (ReadsField)

/-! ### The table -/

/-- The entry at a position. -/
def Arch.at (w : Width) (data : Bytes) (pos : Nat) : Arch where
  cpuCode := Endian.big.wordAt data pos
  cpuSubtype := Endian.big.wordAt data (pos + 4)
  offset := Endian.big.addressAt data (pos + 8) w
  size := Endian.big.addressAt data (pos + 8 + w.pointerSize) w
  align := Endian.big.wordAt data (pos + 8 + w.pointerSize + w.pointerSize)

theorem Arch.readsField_reader (w : Width) : ReadsField (Arch.reader w) w.archSize (Arch.at w) := by
  have hword := ReadM.readsField_u32 .big
  have haddress := ReadM.readsField_address w .big
  cases w with
  | bits32 =>
    exact (hword.bind fun cpuCode => hword.bind fun cpuSubtype => haddress.bind fun offset =>
      haddress.bind fun size => hword.map (Arch.mk cpuCode cpuSubtype offset size)).congr rfl
        fun data pos => rfl
  | bits64 =>
    have hpadding := hword.map fun _ => ()
    exact (hword.bind fun cpuCode => hword.bind fun cpuSubtype => haddress.bind fun offset =>
      haddress.bind fun size => hword.bind fun align =>
        hpadding.map fun _ => Arch.mk cpuCode cpuSubtype offset size align).congr rfl
          fun data pos => rfl

namespace FatArchive

/-- The magic number of an archive, for the width of the offsets in its table. -/
def magicOf : Width → UInt32
  | .bits32 => 0xcafebabe
  | .bits64 => 0xcafebabf

theorem widthOfMagic?_eq_some_iff {word : UInt32} {width : Width} :
    widthOfMagic? word = some width ↔ word = magicOf width := by
  constructor
  · intro h
    unfold widthOfMagic? at h
    split at h
    · cases h
      assumption
    · split at h
      · cases h
        assumption
      · cases h
  · rintro rfl
    cases width <;> rfl

/-- The first position behind a table. -/
def tableEnd (width : Width) (count : Nat) : Nat := headerSize + count * width.archSize

/-- The entries of a table, in order. -/
def entries (data : Bytes) (width : Width) (count : Nat) : List Arch :=
  (List.range count).map fun i => Arch.at width data (headerSize + i * width.archSize)

@[simp] theorem length_entries (data : Bytes) (width : Width) (count : Nat) :
    (entries data width count).length = count := by simp [entries]

/-- A byte string begins with the magic number of an archive and the size of its table, and all of
the table is there. -/
structure Announces (data : Bytes) (width : Width) (count : Nat) : Prop where
  magic_eq : Endian.big.wordAt data 0 = magicOf width
  count_eq : (Endian.big.wordAt data 4).toNat = count
  table_le : tableEnd width count ≤ data.length

variable {data : Bytes} {width : Width} {count : Nat}

theorem Announces.unique {width' : Width} {count' : Nat} (h : Announces data width count)
    (h' : Announces data width' count') : width = width' ∧ count = count' := by
  refine ⟨?_, h.count_eq.symm.trans h'.count_eq⟩
  have hmagic := widthOfMagic?_eq_some_iff.2 h.magic_eq
  rw [widthOfMagic?_eq_some_iff.2 h'.magic_eq] at hmagic
  exact (Option.some.inj hmagic).symm

/-- **A table is read if it is announced**, and its entries are those that stand there. -/
theorem runAt_reader_eq_ok_iff {table : Width × List Arch} :
    (reader data.length).runAt data 0 = .ok table ↔
      ∃ width count, Announces data width count ∧ table = (width, entries data width count) := by
  have hword := ReadM.readsField_u32 .big
  rw [ReadM.runAt_eq_ok_iff]
  constructor
  · rintro ⟨c, h⟩
    obtain ⟨word, c₁, hmagic, h⟩ := ReadM.bind_eq_ok_iff.1 h
    obtain ⟨hfour, rfl, rfl⟩ := (hword (Nat.zero_le _)).1 hmagic
    cases hwidth : widthOfMagic? (Endian.big.wordAt data 0) with
    | none =>
      rw [hwidth] at h
      cases h
    | some width =>
      rw [hwidth] at h
      obtain ⟨count, c₂, hcount, h⟩ := ReadM.bind_eq_ok_iff.1 h
      obtain ⟨height, rfl, rfl⟩ := (hword hfour).1 hcount
      obtain ⟨_, _, hrequire, h⟩ := ReadM.bind_eq_ok_iff.1 h
      obtain ⟨htable, rfl⟩ := ReadM.require_eq_ok_iff.1 hrequire
      obtain ⟨arches, c₃, harches, h⟩ := ReadM.bind_eq_ok_iff.1 h
      cases h
      obtain ⟨-, rfl, -⟩ := ((Arch.readsField_reader width).times _ height).1 harches
      exact ⟨width, _, ⟨widthOfMagic?_eq_some_iff.1 hwidth, rfl, htable⟩, rfl⟩
  · rintro ⟨width, count, ⟨hmagic, rfl, htable⟩, rfl⟩
    have height : 8 ≤ data.length := Nat.le_trans (Nat.le_add_right _ _) htable
    refine ⟨Cursor.of data (tableEnd width (Endian.big.wordAt data 4).toNat), ?_⟩
    refine ReadM.bind_eq_ok_iff.2 ⟨_, _, hword.eq_ok (by omega), ?_⟩
    rw [widthOfMagic?_eq_some_iff.2 hmagic]
    refine ReadM.bind_eq_ok_iff.2 ⟨_, _, hword.eq_ok height, ?_⟩
    refine ReadM.bind_eq_ok_iff.2 ⟨(), _, ReadM.require_eq_ok_iff.2 ⟨htable, rfl⟩, ?_⟩
    exact ReadM.bind_eq_ok_iff.2
      ⟨_, _, ((Arch.readsField_reader width).times _).eq_ok htable, rfl⟩

end FatArchive

/-! ### The checks -/

/-- The slice of an entry ends at a 64-bit number and inside the archive, starts behind the table
unless it is empty, and is aligned to a power of two that is not too large. -/
structure Arch.Valid (tableEnd fileSize : Nat) (a : Arch) : Prop where
  no_wrap : a.offset.toNat + a.size.toNat < 2 ^ 64
  inside : a.offset.toNat + a.size.toNat ≤ fileSize
  behind : a.size.toNat ≠ 0 → tableEnd ≤ a.offset.toNat
  align_le : a.align.toNat ≤ 15
  aligned : 2 ^ a.align.toNat ∣ a.offset.toNat

/-- No byte is in both slices. -/
def Arch.Apart (a b : Arch) : Prop := a.range.Apart b.range

namespace FatArchive

variable {tableEnd fileSize : Nat} {earlier arches : List Arch} {a : Arch} {u : Unit}

theorem check_eq_ok_iff :
    check tableEnd fileSize earlier a = .ok u ↔
      a.Valid tableEnd fileSize ∧ ∀ other ∈ earlier, a.Apart other := by
  have haligned : a.range.start % (1 <<< a.align.toNat) = 0 ↔
      2 ^ a.align.toNat ∣ a.offset.toNat := by
    rw [Nat.one_shiftLeft, Nat.dvd_iff_mod_eq_zero]
    rfl
  have hbehind : (a.range.IsEmpty ∨ tableEnd ≤ a.range.start) ↔
      (a.size.toNat ≠ 0 → tableEnd ≤ a.offset.toNat) := Decidable.or_iff_not_imp_left
  unfold check
  simp only [bind_eq_ok, require_eq_ok_iff, exists_const, haligned, hbehind,
    ByteRange.not_overlaps_iff]
  constructor
  · rintro ⟨hwrap, hinside, hbehind, halign, haligned, hapart⟩
    exact ⟨⟨hwrap, hinside, hbehind, halign, haligned⟩, hapart⟩
  · rintro ⟨⟨hwrap, hinside, hbehind, halign, haligned⟩, hapart⟩
    exact ⟨hwrap, hinside, hbehind, halign, haligned, hapart⟩

/-- **Checking against the earlier entries only is enough**: entries pass if each is valid, and no
two of them, nor one of them and an earlier one, share a byte. -/
theorem checkAll_eq_ok_iff :
    checkAll tableEnd fileSize earlier arches = .ok u ↔
      (∀ a ∈ arches, a.Valid tableEnd fileSize) ∧ arches.Pairwise Arch.Apart ∧
        ∀ a ∈ arches, ∀ other ∈ earlier, a.Apart other := by
  induction arches generalizing earlier with
  | nil =>
    rw [checkAll]
    exact ⟨fun _ => ⟨List.forall_mem_nil _, .nil, List.forall_mem_nil _⟩, fun _ => rfl⟩
  | cons a arches ih =>
    rw [checkAll, bind_eq_ok, List.forall_mem_cons, List.pairwise_cons, List.forall_mem_cons]
    constructor
    · rintro ⟨_, hcheck, hcheckAll⟩
      obtain ⟨hvalid, hearlier⟩ := check_eq_ok_iff.1 hcheck
      obtain ⟨hvalids, hapart, hearliers⟩ := ih.1 hcheckAll
      refine ⟨⟨hvalid, hvalids⟩, ⟨fun b hb => ?_, hapart⟩, hearlier, fun b hb other hother => ?_⟩
      · exact (hearliers b hb a (by simp)).symm
      · exact hearliers b hb other (List.mem_append_left _ hother)
    · rintro ⟨⟨hvalid, hvalids⟩, ⟨hhead, hapart⟩, hearlier, hearliers⟩
      refine ⟨(), check_eq_ok_iff.2 ⟨hvalid, hearlier⟩, ih.2 ⟨hvalids, hapart, fun b hb => ?_⟩⟩
      refine List.forall_mem_append.2 ⟨hearliers b hb, List.forall_mem_singleton.2 ?_⟩
      exact (hhead b hb).symm

/-- The slice of a valid entry is the part of the archive at its offset that has its size. -/
theorem exists_slice {archive : FatArchive} (h : a.Valid tableEnd archive.data.length) :
    ∃ before bytes after, archive.slice a = .ok bytes ∧ archive.data = before ++ (bytes ++ after) ∧
      before.length = a.offset.toNat ∧ bytes.length = a.size.toNat := by
  obtain ⟨bytes, hbytes⟩ : ∃ bytes,
      archive.data.slice? a.offset.toNat a.size.toNat = some bytes :=
    ⟨_, Bytes.slice?_eq_some_iff.2 ⟨h.inside, rfl⟩⟩
  obtain ⟨hinside, htake⟩ := Bytes.slice?_eq_some_iff.1 hbytes
  refine ⟨archive.data.take a.offset.toNat, bytes,
    (archive.data.drop a.offset.toNat).drop a.size.toNat, expect_eq_ok_iff.2 hbytes, ?_, ?_,
    Bytes.length_of_slice?_eq_some hbytes⟩
  · rw [← htake, List.take_append_drop, List.take_append_drop]
  · rw [List.length_take]
    omega

/-! ### Archives -/

variable {data : Bytes} {width : Width} {count : Nat}

/-- Every entry is valid, and no two slices share a byte. -/
structure Sound (tableEnd fileSize : Nat) (arches : List Arch) : Prop where
  valid : ∀ a ∈ arches, a.Valid tableEnd fileSize
  apart : arches.Pairwise Arch.Apart

theorem Sound.perm {arches' : List Arch} (hperm : arches'.Perm arches) :
    Sound tableEnd fileSize arches' ↔ Sound tableEnd fileSize arches := by
  have hapart := hperm.pairwise_iff (R := Arch.Apart) fun h => ByteRange.Apart.symm h
  have hvalid : (∀ a ∈ arches', a.Valid tableEnd fileSize) ↔
      ∀ a ∈ arches, a.Valid tableEnd fileSize :=
    forall_congr' fun a => imp_congr_left hperm.mem_iff
  exact ⟨fun h => ⟨hvalid.1 h.valid, hapart.1 h.apart⟩,
    fun h => ⟨hvalid.2 h.valid, hapart.2 h.apart⟩⟩

theorem read_eq_ok_iff {archive : FatArchive} :
    read data = .ok archive ↔
      ∃ width count, Announces data width count ∧
        Sound (FatArchive.tableEnd width count) data.length (entries data width count) ∧
          archive = ⟨data, width, entries data width count⟩ := by
  have hcheck (width : Width) (count : Nat) :
      checkAll (headerSize + (entries data width count).length * width.archSize) data.length []
          (entries data width count) = .ok () ↔
        Sound (FatArchive.tableEnd width count) data.length (entries data width count) := by
    rw [checkAll_eq_ok_iff, length_entries]
    exact ⟨fun h => ⟨h.1, h.2.1⟩, fun h => ⟨h.valid, h.apart, fun _ _ => List.forall_mem_nil _⟩⟩
  unfold read
  rw [bind_eq_ok]
  constructor
  · rintro ⟨table, htable, h⟩
    obtain ⟨width, count, hannounces, rfl⟩ := runAt_reader_eq_ok_iff.1 htable
    obtain ⟨_, hchecks, ⟨⟩⟩ := bind_eq_ok.1 h
    exact ⟨width, count, hannounces, (hcheck width count).1 hchecks, rfl⟩
  · rintro ⟨width, count, hannounces, hsound, rfl⟩
    refine ⟨_, runAt_reader_eq_ok_iff.2 ⟨width, count, hannounces, rfl⟩, ?_⟩
    exact bind_eq_ok.2 ⟨(), (hcheck width count).2 hsound, rfl⟩

theorem accepts_iff (h : Announces data width count) :
    (∃ archive, read data = .ok archive) ↔
      Sound (FatArchive.tableEnd width count) data.length (entries data width count) := by
  constructor
  · rintro ⟨archive, hread⟩
    obtain ⟨width', count', h', hsound, -⟩ := read_eq_ok_iff.1 hread
    obtain ⟨rfl, rfl⟩ := h.unique h'
    exact hsound
  · intro hsound
    exact ⟨_, read_eq_ok_iff.2 ⟨width, count, h, hsound, rfl⟩⟩

/-- **An archive is accepted if its table is there, every entry is valid, and no two slices share a
byte**, in whatever order the entries come.  It has the entries of the table in their order, and each
of them has just the bytes of its slice. -/
theorem read_iff_valid_apart (data : Bytes) :
    ((∃ archive, read data = .ok archive) ↔
      ∃ width count, Announces data width count ∧
        (∀ a ∈ entries data width count,
          a.Valid (headerSize + count * width.archSize) data.length) ∧
        (entries data width count).Pairwise Arch.Apart) ∧
    (∀ archive, read data = .ok archive →
      archive.data = data ∧
      ∃ count, Announces data archive.width count ∧
        archive.arches = entries data archive.width count ∧
        ∀ a ∈ archive.arches, ∃ before bytes after, archive.slice a = .ok bytes ∧
          data = before ++ (bytes ++ after) ∧ before.length = a.offset.toNat ∧
            bytes.length = a.size.toNat) ∧
    ∀ (data' : Bytes) (width : Width) (count : Nat), data'.length = data.length →
      Announces data width count → Announces data' width count →
      (entries data' width count).Perm (entries data width count) →
        ((∃ archive, read data' = .ok archive) ↔ ∃ archive, read data = .ok archive) := by
  refine ⟨⟨?_, ?_⟩, ?_, ?_⟩
  · rintro ⟨archive, hread⟩
    obtain ⟨width, count, hannounces, hsound, -⟩ := read_eq_ok_iff.1 hread
    exact ⟨width, count, hannounces, hsound.valid, hsound.apart⟩
  · rintro ⟨width, count, hannounces, hvalid, hapart⟩
    exact (accepts_iff hannounces).2 ⟨hvalid, hapart⟩
  · intro archive hread
    obtain ⟨width, count, hannounces, hsound, rfl⟩ := read_eq_ok_iff.1 hread
    exact ⟨rfl, count, hannounces, rfl, fun a ha => exists_slice (hsound.valid a ha)⟩
  · intro data' width count hlength hannounces hannounces' hperm
    rw [accepts_iff hannounces, accepts_iff hannounces', hlength]
    exact Sound.perm hperm

/-- An archive with slices of two bytes and of one byte is accepted, also with its entries the other
way round. -/
theorem read_iff_valid_apart_example :
    let entry (offset size align : UInt8) : Bytes :=
      [0, 0, 0, 7, 0, 0, 0, 3, 0, 0, 0, offset, 0, 0, 0, size, 0, 0, 0, align]
    let bytes (table : Bytes) : Bytes :=
      [0xca, 0xfe, 0xba, 0xbe, 0, 0, 0, 2] ++ table ++ [1, 2, 0, 0, 3]
    let data := bytes (entry 48 2 4 ++ entry 52 1 2)
    let data' := bytes (entry 52 1 2 ++ entry 48 2 4)
    let archive : FatArchive := ⟨data, .bits32, [⟨7, 3, 48, 2, 4⟩, ⟨7, 3, 52, 1, 2⟩]⟩
    read data = .ok archive ∧
      (∃ before bytes after, archive.slice ⟨7, 3, 48, 2, 4⟩ = .ok bytes ∧
        data = before ++ (bytes ++ after) ∧ before.length = 48 ∧ bytes.length = 2) ∧
      data'.length = data.length ∧ Announces data .bits32 2 ∧ Announces data' .bits32 2 ∧
      (entries data' .bits32 2).Perm (entries data .bits32 2) ∧
      ∃ archive', read data' = .ok archive' := by
  intro entry bytes data data' archive
  have hread : read data = .ok archive := by decide +kernel
  have hannounces : Announces data .bits32 2 :=
    ⟨by decide +kernel, by decide +kernel, by decide +kernel⟩
  have hannounces' : Announces data' .bits32 2 :=
    ⟨by decide +kernel, by decide +kernel, by decide +kernel⟩
  have hperm : (entries data' .bits32 2).Perm (entries data .bits32 2) := by decide +kernel
  obtain ⟨-, harchive, horder⟩ := read_iff_valid_apart data
  obtain ⟨-, _, -, -, hslices⟩ := harchive archive hread
  exact ⟨hread, hslices ⟨7, 3, 48, 2, 4⟩ List.mem_cons_self, rfl, hannounces, hannounces', hperm,
    (horder data' .bits32 2 rfl hannounces hannounces' hperm).2 ⟨archive, hread⟩⟩

end FatArchive

end MachO
