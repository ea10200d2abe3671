import MachO.ByteRange

/-!
# Comparing ranges

* `ByteRange.Apart`: two ranges without a common position;
* `ByteRange.overlaps_iff`, `ByteRange.covers_iff`: what the comparisons of end points tell of
  positions;
* `ByteRange.Made`: the ranges that are made of 64-bit numbers, with `ByteRange.compares_addresses`,
  which tells that comparing them compares sets of addresses.
-/

namespace MachO.ByteRange

/-- No position is in both ranges. -/
def Apart (r s : ByteRange) : Prop := ∀ p, p ∈ r → p ∉ s

theorem Apart.symm {r s : ByteRange} (h : r.Apart s) : s.Apart r := fun p hs hr => h p hr hs

theorem start_mem {r : ByteRange} (h : ¬r.IsEmpty) : r.start ∈ r := by
  rw [mem_iff]
  unfold IsEmpty at h
  unfold stop
  omega

theorem add_mem {r : ByteRange} {n : Nat} (h : n < r.size) : r.start + n ∈ r :=
  ⟨Nat.le_add_right _ _, Nat.add_lt_add_left h _⟩

theorem not_isEmpty_of_pos {r : ByteRange} (h : 0 < r.size) : ¬r.IsEmpty := Nat.ne_of_gt h

/-- Two ranges overlap if some position is in both. -/
theorem overlaps_iff {r s : ByteRange} : r.Overlaps s ↔ ∃ p, p ∈ r ∧ p ∈ s := by
  constructor
  · rintro ⟨hr, hs, hrs, hsr⟩
    -- The later one of the two starts is in both ranges.
    rcases Nat.le_total r.start s.start with hle | hle
    · exact ⟨s.start, mem_iff.2 ⟨hle, hsr⟩, start_mem hs⟩
    · exact ⟨r.start, start_mem hr, mem_iff.2 ⟨hle, hrs⟩⟩
  · rintro ⟨p, hr, hs⟩
    rw [mem_iff] at hr hs
    unfold Overlaps IsEmpty
    unfold stop at *
    omega

theorem not_overlaps_iff {r s : ByteRange} : ¬r.Overlaps s ↔ r.Apart s := by
  rw [overlaps_iff]
  exact ⟨fun h p hr hs => h ⟨p, hr, hs⟩, fun h ⟨p, hr, hs⟩ => h p hr hs⟩

/-- A range covers another one if it holds all its positions. -/
theorem covers_iff {r s : ByteRange} : r.Covers s ↔ ∀ p ∈ s, p ∈ r := by
  constructor
  · rintro (hempty | ⟨hstart, hstop⟩) p hp
    · rw [mem_iff] at hp
      unfold IsEmpty at hempty
      unfold stop at hp
      omega
    · rw [mem_iff] at hp ⊢
      omega
  · intro h
    by_cases hempty : s.IsEmpty
    · exact .inl hempty
    · have hfirst := h s.start (start_mem hempty)
      unfold IsEmpty at hempty
      have hlast := h (s.stop - 1) (mem_iff.2 (by unfold stop; omega))
      rw [mem_iff] at hfirst hlast
      refine .inr ⟨hfirst.1, ?_⟩
      unfold stop at *
      omega

theorem Overlaps.symm {r s : ByteRange} (h : r.Overlaps s) : s.Overlaps r := by
  rw [overlaps_iff] at h ⊢
  obtain ⟨p, hr, hs⟩ := h
  exact ⟨p, hs, hr⟩

/-- What overlaps a part of a range overlaps the range. -/
theorem Overlaps.of_covers {r s t : ByteRange} (h : s.Overlaps t) (hcovers : r.Covers s) :
    r.Overlaps t := by
  rw [overlaps_iff] at h ⊢
  rw [covers_iff] at hcovers
  obtain ⟨p, hs, ht⟩ := h
  exact ⟨p, hcovers p hs, ht⟩

/-! ### Ranges of 64-bit numbers -/

/-- A range that is made of 64-bit numbers: from a start and a size, or without a position. -/
inductive Made : ByteRange → Prop
  | ofSize (start size : UInt64) {r : ByteRange}
      (h : ofSize? start.toNat size.toNat = some r) : Made r
  | emptyAt (start : UInt64) : Made (emptyAt start.toNat)

theorem ofSize?_eq_none_iff {start size : Nat} :
    ofSize? start size = none ↔ UInt64.size ≤ start + size := by
  unfold ofSize?
  split
  · rename_i h
    simp only [reduceCtorEq, false_iff, Nat.not_le, h]
  · rename_i h
    exact iff_of_true rfl (Nat.le_of_not_lt h)

/-- Even the end of such a range is a 64-bit number. -/
theorem Made.stop_lt {r : ByteRange} (h : r.Made) : r.stop < UInt64.size := by
  cases h with
  | ofSize start size h =>
    obtain ⟨hlt, rfl⟩ := ofSize?_eq_some_iff.1 h
    exact hlt
  | emptyAt start => exact start.toNat_lt

theorem Made.exists_address {r : ByteRange} {p : Nat} (h : r.Made) (hp : p ∈ r) :
    ∃ address : UInt64, address.toNat = p :=
  ⟨UInt64.ofNat p, UInt64.toNat_ofNat_of_lt' (Nat.lt_trans hp.2 h.stop_lt)⟩

/-- **Comparing ranges compares sets of addresses**: two ranges overlap if and only if they have an
address in common, whichever is named first, and one covers another if and only if it has all its
addresses, so what is apart from a range is apart from all that the range covers.  A start and a size
make the range of the addresses from the start on, unless their sum is no 64-bit number. -/
theorem compares_addresses {r s : ByteRange} (hs : s.Made) (t : ByteRange) :
    (r.Overlaps s ↔ ∃ p : UInt64, p.toNat ∈ r ∧ p.toNat ∈ s) ∧
      (r.Overlaps s ↔ s.Overlaps r) ∧
      (r.Covers s ↔ ∀ p : UInt64, p.toNat ∈ s → p.toNat ∈ r) ∧
      (r.Covers s → ¬r.Overlaps t → ¬s.Overlaps t) ∧
      ∀ start size : UInt64,
        (ofSize? start.toNat size.toNat = none ↔ UInt64.size ≤ start.toNat + size.toNat) ∧
          ∀ made ∈ ofSize? start.toNat size.toNat, ∀ p : UInt64, p.toNat ∈ made ↔
            start.toNat ≤ p.toNat ∧ p.toNat < start.toNat + size.toNat := by
  refine ⟨?_, ⟨.symm, .symm⟩, ?_, fun hcovers hrt hst => hrt (hst.of_covers hcovers),
    fun start size => ⟨ofSize?_eq_none_iff, fun made hmade p => ?_⟩⟩
  · rw [overlaps_iff]
    constructor
    · rintro ⟨p, hr, hp⟩
      obtain ⟨address, rfl⟩ := hs.exists_address hp
      exact ⟨address, hr, hp⟩
    · rintro ⟨address, hr, hp⟩
      exact ⟨address.toNat, hr, hp⟩
  · rw [covers_iff]
    constructor
    · intro h address
      exact h address.toNat
    · intro h p hp
      obtain ⟨address, rfl⟩ := hs.exists_address hp
      exact h address hp
  · obtain ⟨-, rfl⟩ := ofSize?_eq_some_iff.1 hmade
    exact mem_iff

/-- At the end of the address space, a range covers another one, and both are apart from one that
ends where the first begins.  No range has the last address. -/
theorem compares_last_addresses :
    let r : ByteRange := ⟨UInt64.size - 16, 15⟩
    let s : ByteRange := ⟨UInt64.size - 8, 7⟩
    let t : ByteRange := ⟨UInt64.size - 24, 8⟩
    s.Made ∧ (∃ p : UInt64, p.toNat ∈ r ∧ p.toNat ∈ s) ∧ r.Covers s ∧ ¬r.Overlaps t ∧
      ¬s.Overlaps t ∧ ofSize? (UInt64.size - 1) 1 = none := by
  intro r s t
  have hs : s.Made := .ofSize 18446744073709551608 7 (by decide)
  obtain ⟨hoverlaps, -, -, hapart, hmake⟩ := compares_addresses (r := r) hs t
  have hcovers : r.Covers s := by decide
  have hrt : ¬r.Overlaps t := by decide
  exact ⟨hs, hoverlaps.1 (by decide), hcovers, hrt, hapart hcovers hrt,
    (hmake 18446744073709551615 1).1.2 (by decide)⟩

end MachO.ByteRange
