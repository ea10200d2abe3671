import MachO.Proofs.Export.Walk

/-!
# More bytes behind a trie

* `Export.Trie.Agrees`: two walks that differ only in what follows the bytes of the first;
* `Export.Trie.Visits.extend`: a node that the first walk visits is visited by the second;
* `Export.values_trie_isPrefix`: bytes that follow only add symbols.
-/

namespace MachO.Export

theorem Place.Sound.mono {data data' : Bytes} {maxDepth : Nat} {place : Place}
    (h : place.Sound data maxDepth) (hdata : data <+: data') : place.Sound data' maxDepth := by
  obtain ⟨hslice, hwritten, hdepth, hnamed⟩ := h
  obtain ⟨more, rfl⟩ := hdata
  obtain ⟨hle, htake⟩ := Bytes.slice?_eq_some_iff.1 hslice
  refine ⟨Bytes.slice?_eq_some_iff.2 ⟨?_, ?_⟩, hwritten, hdepth, hnamed⟩
  · rw [List.length_append]
    omega
  · rw [List.drop_append_of_le_length (by omega), List.take_append_of_le_length, htake]
    rw [List.length_drop]
    omega

namespace Trie

variable {t t' : Trie}

/-- The walks have visited the same nodes and go on with the same ones, and the bytes of the first
are the first bytes of the second. -/
structure Agrees (t t' : Trie) : Prop where
  data : t.data <+: t'.data
  maxDepth_eq : t.maxDepth = t'.maxDepth
  stack_eq : t.stack = t'.stack
  ranges_eq : t.visited.ranges = t'.visited.ranges

/-- **A node that one walk visits is visited by a walk over more bytes**, and the two agree
afterwards. -/
theorem Visits.extend {place : Place} {stack : List Frame} {visited : Visited t.data.length}
    (h : t.Visits place stack visited) (hagrees : t.Agrees t') :
    ∃ visited', t'.Visits place stack visited' ∧
      (t.after place stack visited).Agrees (t'.after place stack visited') := by
  obtain ⟨hdata, hdepth, hstack, hranges⟩ := hagrees
  have hsound : place.Sound t'.data t'.maxDepth := hdepth ▸ h.sound.mono hdata
  have hfresh : ∀ r ∈ t'.visited.ranges, r.Apart place.range := hranges ▸ h.fresh
  obtain ⟨visited', hvisited'⟩ :=
    Visited.exists_insert? (v := t'.visited) hsound.size_pos hsound.stop_le hfresh
  refine ⟨visited', ⟨hstack ▸ h.stack_eq, hsound, hfresh, hvisited'⟩, hdata, hdepth, rfl, ?_⟩
  show visited.ranges = visited'.ranges
  rw [hvisited', h.ranges_eq, hranges]

/-- **Bytes that follow only add symbols**, after those of the walk without them. -/
theorem Agrees.values_isPrefix (h : t.Agrees t') : Source.values t <+: Source.values t' := by
  induction t using visit_induction generalizing t' with
  | done t hstack =>
    rw [values_of_stack_eq_nil hstack]
    exact List.nil_prefix
  | fail t e hnext =>
    rw [Source.values_of_error hnext, values_of_stack_eq_nil rfl]
    exact List.nil_prefix
  | visit t place stack visited hvisits ih =>
    obtain ⟨visited', hvisits', hagrees⟩ := hvisits.extend h
    rw [values_of_visits hvisits, values_of_visits hvisits', List.prefix_append_right_inj]
    exact ih hagrees

end Trie

/-- A walk over the first bytes of a trie finds some of its first symbols. -/
theorem values_trie_isPrefix (data : Bytes) (count maxDepth : Nat) :
    Source.values (trie (data.take count) maxDepth) <+: Source.values (trie data maxDepth) := by
  by_cases hempty : data.take count = []
  · rw [hempty, Trie.values_of_stack_eq_nil rfl]
    exact List.nil_prefix
  · have hdata : data ≠ [] := by
      rintro rfl
      exact hempty List.take_nil
    refine Trie.Agrees.values_isPrefix ⟨List.take_prefix count data, rfl, ?_, rfl⟩
    rw [trie_stack hempty, trie_stack hdata]

end MachO.Export
