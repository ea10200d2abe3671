import MachO.ByteRange

/-!
# The part of a trie that was visited

No two nodes of a trie share a byte, so the nodes that were visited are ranges apart from each other.

* `Export.Visited`: such ranges, in order, inside a trie of a given size;
* `Export.Visited.overlaps`: whether a range shares a byte with one of them.  It looks at the
  nearest range on either side only, and `Export.Visited.overlaps_iff` tells that this is enough;
* `Export.Visited.insert?`: adds a range that shares no byte with the others;
* `Export.Visited.covered`: the number of bytes visited, which is at most the size of the trie.
-/

namespace MachO.Export

/-- Ranges that are not empty and lie behind each other in the first `size` positions. -/
structure Visited (size : Nat) where
  ranges : List ByteRange
  sorted : ranges.Pairwise fun a b => a.stop ≤ b.start
  nonempty : ∀ r ∈ ranges, 0 < r.size
  stop_le : ∀ r ∈ ranges, r.stop ≤ size

namespace Visited

/-- No range at all. -/
def empty (size : Nat) : Visited size := ⟨[], .nil, by simp, by simp⟩

/-- The last of the ranges that starts at or before a position. -/
def before? (p : Nat) : List ByteRange → Option ByteRange
  | [] => none
  | r :: rest => if r.start ≤ p then some ((before? p rest).getD r) else none

/-- The first of the ranges that starts at or behind a position. -/
def after? (p : Nat) (ranges : List ByteRange) : Option ByteRange :=
  ranges.find? (p ≤ ·.start)

/-- Whether a range shares a byte with one that was visited. -/
def overlaps {size : Nat} (v : Visited size) (r : ByteRange) : Bool :=
  (before? r.start v.ranges).any (r.start < ·.stop) ||
    (after? r.start v.ranges).any (·.start < r.stop)

/-- Puts a range in front of the first that starts at or behind it. -/
def insertSorted (r : ByteRange) : List ByteRange → List ByteRange
  | [] => [r]
  | s :: rest => if s.start < r.start then s :: insertSorted r rest else r :: s :: rest

/-- The number of bytes in some ranges. -/
def total : List ByteRange → Nat
  | [] => 0
  | r :: rest => r.size + total rest

/-- The number of bytes visited. -/
def covered {size : Nat} (v : Visited size) : Nat := total v.ranges

theorem mem_insertSorted {r s : ByteRange} {ranges : List ByteRange} :
    s ∈ insertSorted r ranges ↔ s = r ∨ s ∈ ranges := by
  induction ranges with
  | nil => simp [insertSorted]
  | cons t rest ih =>
    unfold insertSorted
    split
    · simp only [List.mem_cons, ih]
      exact ⟨fun h => h.elim (.inr ∘ .inl) (Or.imp_right .inr),
        fun h => h.elim (.inr ∘ .inl) (Or.imp_right .inr)⟩
    · simp only [List.mem_cons]

theorem total_insertSorted (r : ByteRange) (ranges : List ByteRange) :
    total (insertSorted r ranges) = r.size + total ranges := by
  induction ranges with
  | nil => rfl
  | cons t rest ih =>
    unfold insertSorted
    split
    · simp only [total, ih]
      omega
    · rfl

/-- The last range that starts at or before a position ends behind all others that do. -/
theorem before?_eq_some {p : Nat} {ranges : List ByteRange} {r : ByteRange}
    (hsorted : ranges.Pairwise fun a b => a.stop ≤ b.start) (h : before? p ranges = some r) :
    r ∈ ranges ∧ r.start ≤ p ∧ ∀ s ∈ ranges, s.start ≤ p → s = r ∨ s.stop ≤ r.start := by
  induction ranges generalizing r with
  | nil => cases h
  | cons t rest ih =>
    obtain ⟨ht, hrest⟩ := List.pairwise_cons.1 hsorted
    simp only [before?] at h
    split at h
    · rename_i hstart
      cases hb : before? p rest with
      | none =>
        rw [hb, Option.getD_none, Option.some.injEq] at h
        subst h
        refine ⟨by simp, hstart, fun s hs hsp => ?_⟩
        rcases List.mem_cons.1 hs with rfl | hs
        · exact .inl rfl
        · exfalso
          cases rest with
          | nil => cases hs
          | cons u rest =>
            have hu : u.start ≤ p := by
              rcases List.mem_cons.1 hs with rfl | hs
              · exact hsp
              · have := (List.pairwise_cons.1 hrest).1 s hs
                unfold ByteRange.stop at this
                omega
            simp [before?, hu] at hb
      | some b =>
        rw [hb, Option.getD_some, Option.some.injEq] at h
        subst h
        obtain ⟨hmem, hbp, hall⟩ := ih hrest hb
        refine ⟨List.mem_cons_of_mem _ hmem, hbp, fun s hs hsp => ?_⟩
        rcases List.mem_cons.1 hs with rfl | hs
        · exact .inr (ht _ hmem)
        · exact hall s hs hsp
    · cases h

theorem before?_isSome {p : Nat} {ranges : List ByteRange} {s : ByteRange}
    (hsorted : ranges.Pairwise fun a b => a.stop ≤ b.start) (hs : s ∈ ranges) (hsp : s.start ≤ p) :
    ∃ r, before? p ranges = some r := by
  cases ranges with
  | nil => cases hs
  | cons t rest =>
    have ht : t.start ≤ p := by
      rcases List.mem_cons.1 hs with rfl | hs
      · exact hsp
      · have := (List.pairwise_cons.1 hsorted).1 s hs
        unfold ByteRange.stop at this
        omega
    exact ⟨(before? p rest).getD t, by simp [before?, ht]⟩

/-- The first range that starts at or behind a position starts before all others that do. -/
theorem after?_eq_some {p : Nat} {ranges : List ByteRange} {r : ByteRange}
    (hsorted : ranges.Pairwise fun a b => a.stop ≤ b.start) (h : after? p ranges = some r) :
    r ∈ ranges ∧ p ≤ r.start ∧ ∀ s ∈ ranges, p ≤ s.start → r.start ≤ s.start := by
  unfold after? at h
  induction ranges with
  | nil => cases h
  | cons t rest ih =>
    obtain ⟨ht, hrest⟩ := List.pairwise_cons.1 hsorted
    rw [List.find?_cons] at h
    split at h
    · rename_i hp
      cases h
      refine ⟨by simp, by simpa using hp, fun s hs _ => ?_⟩
      rcases List.mem_cons.1 hs with rfl | hs
      · exact Nat.le_refl _
      · have := ht s hs
        unfold ByteRange.stop at this
        omega
    · rename_i hp
      obtain ⟨hmem, hpr, hall⟩ := ih hrest h
      refine ⟨List.mem_cons_of_mem _ hmem, hpr, fun s hs hps => ?_⟩
      rcases List.mem_cons.1 hs with rfl | hs
      · simp [hps] at hp
      · exact hall s hs hps

theorem after?_isSome {p : Nat} {ranges : List ByteRange} {s : ByteRange} (hs : s ∈ ranges)
    (hps : p ≤ s.start) : ∃ r, after? p ranges = some r := by
  have : (after? p ranges).isSome := List.find?_isSome.2 ⟨s, hs, by simpa using hps⟩
  exact Option.isSome_iff_exists.1 this

/-- A range shares a byte with the nearest range on one of its sides if it shares a byte with any. -/
theorem overlaps_iff {size : Nat} (v : Visited size) {r : ByteRange} (hr : 0 < r.size) :
    v.overlaps r = true ↔ ∃ s ∈ v.ranges, s.Overlaps r := by
  simp only [overlaps, Bool.or_eq_true, Option.any_eq_true, decide_eq_true_eq,
    ByteRange.Overlaps, ByteRange.IsEmpty]
  constructor
  · rintro (⟨s, hs, hstop⟩ | ⟨s, hs, hstart⟩)
    · obtain ⟨hmem, hsp, -⟩ := before?_eq_some v.sorted hs
      have := v.nonempty s hmem
      refine ⟨s, hmem, by omega, by omega, ?_, hstop⟩
      unfold ByteRange.stop
      omega
    · obtain ⟨hmem, hps, -⟩ := after?_eq_some v.sorted hs
      have := v.nonempty s hmem
      refine ⟨s, hmem, by omega, by omega, hstart, ?_⟩
      unfold ByteRange.stop
      omega
  · rintro ⟨s, hmem, -, -, hstart, hstop⟩
    rcases Nat.lt_or_ge r.start s.start with hlt | hge
    · right
      obtain ⟨t, ht⟩ := after?_isSome hmem (Nat.le_of_lt hlt)
      obtain ⟨-, -, hall⟩ := after?_eq_some v.sorted ht
      exact ⟨t, ht, Nat.lt_of_le_of_lt (hall s hmem (Nat.le_of_lt hlt)) hstart⟩
    · left
      obtain ⟨t, ht⟩ := before?_isSome v.sorted hmem hge
      obtain ⟨-, htp, hall⟩ := before?_eq_some v.sorted ht
      rcases hall s hmem hge with rfl | hle
      · exact ⟨s, ht, hstop⟩
      · omega

theorem pairwise_insertSorted {r : ByteRange} {ranges : List ByteRange}
    (hsorted : ranges.Pairwise fun a b => a.stop ≤ b.start) (hr : 0 < r.size)
    (hne : ∀ s ∈ ranges, 0 < s.size) (hapart : ∀ s ∈ ranges, ¬s.Overlaps r) :
    (insertSorted r ranges).Pairwise fun a b => a.stop ≤ b.start := by
  have apart : ∀ s ∈ ranges, s.stop ≤ r.start ∨ r.stop ≤ s.start := by
    intro s hs
    have h := hapart s hs
    have := hne s hs
    simp only [ByteRange.Overlaps, ByteRange.IsEmpty] at h
    omega
  clear hapart
  induction ranges with
  | nil => exact List.pairwise_singleton _ _
  | cons t rest ih =>
    obtain ⟨ht, hrest⟩ := List.pairwise_cons.1 hsorted
    have hapart_t := apart t (by simp)
    have hne_t := hne t (by simp)
    unfold insertSorted
    split
    · rename_i hlt
      refine List.pairwise_cons.2 ⟨fun s hs => ?_, ih hrest (fun s hs => hne s (by simp [hs]))
        fun s hs => apart s (by simp [hs])⟩
      rcases mem_insertSorted.1 hs with rfl | hs
      · unfold ByteRange.stop at *
        omega
      · exact ht s hs
    · rename_i hge
      refine List.pairwise_cons.2 ⟨fun s hs => ?_, hsorted⟩
      rcases List.mem_cons.1 hs with rfl | hs
      · unfold ByteRange.stop at *
        omega
      · have := ht s hs
        unfold ByteRange.stop at *
        omega

/-- Adds a range, unless it shares a byte with one that was visited. -/
def insert? {size : Nat} (v : Visited size) (r : ByteRange) (hr : 0 < r.size)
    (hstop : r.stop ≤ size) : Option (Visited size) :=
  if h : v.overlaps r then none
  else some {
    ranges := insertSorted r v.ranges
    sorted := pairwise_insertSorted v.sorted hr v.nonempty fun s hs hsr =>
      h ((v.overlaps_iff hr).2 ⟨s, hs, hsr⟩)
    nonempty := fun _ hs => (mem_insertSorted.1 hs).elim (fun h => h ▸ hr) (v.nonempty _)
    stop_le := fun _ hs => (mem_insertSorted.1 hs).elim (fun h => h ▸ hstop) (v.stop_le _) }

theorem total_le {size least : Nat} {ranges : List ByteRange}
    (hsorted : ranges.Pairwise fun a b => a.stop ≤ b.start) (hstop : ∀ r ∈ ranges, r.stop ≤ size)
    (hstart : ∀ r ∈ ranges, least ≤ r.start) : total ranges ≤ size - least := by
  induction ranges generalizing least with
  | nil => exact Nat.zero_le _
  | cons t rest ih =>
    obtain ⟨ht, hrest⟩ := List.pairwise_cons.1 hsorted
    have htotal := ih hrest (fun r hr => hstop r (by simp [hr])) ht
    have h₁ := hstop t (by simp)
    have h₂ := hstart t (by simp)
    unfold ByteRange.stop at *
    simp only [total]
    omega

theorem covered_le {size : Nat} (v : Visited size) : v.covered ≤ size :=
  total_le v.sorted v.stop_le fun _ _ => Nat.zero_le _

theorem covered_of_insert? {size : Nat} {v v' : Visited size} {r : ByteRange} {hr : 0 < r.size}
    {hstop : r.stop ≤ size} (h : v.insert? r hr hstop = some v') :
    v'.covered = r.size + v.covered := by
  unfold insert? at h
  split at h
  · cases h
  · cases h
    exact total_insertSorted r v.ranges

/-- Fewer bytes are left after a range was added. -/
theorem uncovered_lt_of_insert? {size : Nat} {v v' : Visited size} {r : ByteRange}
    {hr : 0 < r.size} {hstop : r.stop ≤ size} (h : v.insert? r hr hstop = some v') :
    size - v'.covered < size - v.covered := by
  have := covered_of_insert? h
  have := v'.covered_le
  omega

end Visited

end MachO.Export
