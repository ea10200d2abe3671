import MachO.Proofs.Export.Tree

/-!
# Walks over laid out trees

* `Export.Trie.Visits`: what it takes to visit the next node of a walk;
* `Export.Trie.next_of_visits`, `Export.Trie.toList_of_visits`: the items of a walk, node by node;
* `Export.Trie.visit_induction`: a walk comes to its end, fails or goes on behind a visit;
* `Export.Trie.Pending`: the trees that are still to be walked over;
* `Export.toList_trie_eq_records`: a walk fails unless a tree is laid out, and else finds its
  symbols.
-/

namespace MachO.Export

/-! ### Marking nodes as visited -/

theorem Visited.ext {size : Nat} {v v' : Visited size} (h : v.ranges = v'.ranges) : v = v' := by
  cases v
  cases v'
  cases h
  rfl

theorem Visited.overlaps_eq_false_iff {size : Nat} {v : Visited size} {r : ByteRange}
    (hr : 0 < r.size) : v.overlaps r = false ↔ ∀ s ∈ v.ranges, s.Apart r := by
  rw [← Bool.not_eq_true, v.overlaps_iff hr]
  simp only [not_exists, not_and, ByteRange.not_overlaps_iff]

/-- A range is added if it has no position in common with any other one. -/
theorem Visited.insert?_eq_some_iff {size : Nat} {v v' : Visited size} {r : ByteRange}
    {hr : 0 < r.size} {hstop : r.stop ≤ size} :
    v.insert? r hr hstop = some v' ↔
      (∀ s ∈ v.ranges, s.Apart r) ∧ v'.ranges = insertSorted r v.ranges := by
  rw [← Visited.overlaps_eq_false_iff hr]
  unfold insert?
  constructor
  · intro h
    split at h
    · cases h
    · rename_i hfalse
      cases h
      exact ⟨by simpa using hfalse, rfl⟩
  · rintro ⟨hfalse, hranges⟩
    rw [dif_neg (by simp [hfalse])]
    exact congrArg some (Visited.ext hranges.symm)

theorem Visited.exists_insert? {size : Nat} {v : Visited size} {r : ByteRange} (hr : 0 < r.size)
    (hstop : r.stop ≤ size) (h : ∀ s ∈ v.ranges, s.Apart r) :
    ∃ v' : Visited size, v'.ranges = insertSorted r v.ranges := by
  have hfalse := (Visited.overlaps_eq_false_iff hr).2 h
  have hinsert : ∃ v', v.insert? r hr hstop = some v' := by
    unfold insert?
    rw [dif_neg (by simp [hfalse])]
    exact ⟨_, rfl⟩
  obtain ⟨v', hv'⟩ := hinsert
  exact ⟨v', (Visited.insert?_eq_some_iff.1 hv').2⟩

namespace Trie

variable {t : Trie} {place : Place} {stack : List Frame} {visited : Visited t.data.length}

/-- The frame of a node is the next one, the node stands where the frame tells, and it has no
position in common with a visited one. -/
structure Visits (t : Trie) (place : Place) (stack : List Frame)
    (visited : Visited t.data.length) : Prop where
  stack_eq : t.stack = place.frame :: stack
  sound : place.Sound t.data t.maxDepth
  fresh : ∀ r ∈ t.visited.ranges, r.Apart place.range
  ranges_eq : visited.ranges = Visited.insertSorted place.range t.visited.ranges

/-- The walk after a visit. -/
def after (t : Trie) (place : Place) (stack : List Frame) (visited : Visited t.data.length) :
    Trie :=
  { t with stack := place.frame.children place.node ++ stack, visited }

theorem Visits.insert?_eq (h : t.Visits place stack visited) {r : ByteRange}
    (hr : 0 < r.size) (hstop : r.stop ≤ t.data.length) (hrange : r = place.range) :
    t.visited.insert? r hr hstop = some visited := by
  subst hrange
  exact Visited.insert?_eq_some_iff.2 ⟨h.fresh, h.ranges_eq⟩

/-- Every visit adds to the visited bytes. -/
theorem Visits.uncovered_lt (h : t.Visits place stack visited) :
    t.data.length - visited.covered < t.data.length - t.visited.covered :=
  Visited.uncovered_lt_of_insert? (h.insert?_eq h.sound.size_pos h.sound.stop_le rfl)

theorem visit_eq_ok_iff {f : Frame} {node : Node} {stop : Nat} :
    t.visit f = .ok (node, stop) ↔
      ∃ written, (Place.mk f.offset f.name f.depth node written).Sound t.data t.maxDepth ∧
        t.visited.overlaps ⟨f.offset, 1⟩ = false ∧ stop = f.offset + written.length := by
  unfold visit
  constructor
  · intro h
    split at h
    · cases h
    · rename_i hstart
      split at h
      · cases h
      · rename_i hdepth
        obtain ⟨written, hslice, hwritten, hname, rfl⟩ := Node.read_eq_ok_iff.1 h
        rw [not_or, Bool.not_eq_true] at hstart
        exact ⟨written, ⟨hslice, hwritten, Nat.not_lt.1 hdepth, hname⟩, hstart.2, rfl⟩
  · rintro ⟨written, hsound, hoverlaps, rfl⟩
    have hsize : 0 < written.length := hsound.size_pos
    have hstop : f.offset + written.length ≤ t.data.length := hsound.stop_le
    rw [hoverlaps, if_neg, if_neg (Nat.not_lt.2 hsound.depth_le)]
    swap
    · simp only [Bool.false_eq_true, or_false]
      omega
    exact Node.read_eq_ok_iff.2 ⟨written, hsound.slice, hsound.written, hsound.named, rfl⟩

theorem Visits.visit_eq (h : t.Visits place stack visited) :
    t.visit place.frame = .ok (place.node, place.range.stop) := by
  refine visit_eq_ok_iff.2 ⟨place.written, h.sound, ?_, rfl⟩
  rw [← Bool.not_eq_true, t.visited.overlaps_iff Nat.one_pos]
  rintro ⟨r, hr, hoverlaps⟩
  -- A position shared with the first byte of the node is shared with the node.
  obtain ⟨p, hp, hfirst⟩ := ByteRange.overlaps_iff.1 hoverlaps
  have hsize : 0 < place.written.length := h.sound.size_pos
  have hlast : p < place.start + 1 := hfirst.2
  exact h.fresh r hr p hp ⟨hfirst.1, show p < place.start + place.written.length by omega⟩

/-! ### The items of a walk -/

theorem next_of_visits (h : t.Visits place stack visited) :
    next t = match place.record? with
      | some record => (some (.ok record), t.after place stack visited)
      | none => next (t.after place stack visited) := by
  rw [next]
  split
  · rename_i hstack
    rw [h.stack_eq] at hstack
    cases hstack
  · rename_i f stack' hstack
    rw [h.stack_eq] at hstack
    cases hstack
    split
    · rename_i hvisit
      rw [h.visit_eq] at hvisit
      cases hvisit
    · rename_i node stop hvisit
      rw [h.visit_eq] at hvisit
      cases hvisit
      have hrange : (⟨place.frame.offset, place.range.stop - place.frame.offset⟩ : ByteRange) =
          place.range :=
        congrArg _ (Nat.add_sub_cancel_left place.start place.written.length)
      dsimp only
      split
      · rename_i hinsert
        rw [h.insert?_eq _ _ hrange] at hinsert
        cases hinsert
      · rename_i visited' hinsert
        rw [h.insert?_eq _ _ hrange] at hinsert
        cases hinsert
        rw [Place.frame_record?]
        rfl

/-- A walk that is not at its end fails or visits a node. -/
theorem next_error_or_visits (hstack : t.stack ≠ []) :
    (∃ e, next t = (some (.error e), { t with stack := [] })) ∨
      ∃ place stack visited, t.Visits place stack visited := by
  rw [next]
  split
  · rename_i hnil
    exact absurd hnil hstack
  · rename_i f stack hframe
    split
    · exact .inl ⟨_, rfl⟩
    · rename_i node stop hvisit
      obtain ⟨written, hsound, -, hstop⟩ := visit_eq_ok_iff.1 hvisit
      dsimp only
      split
      · exact .inl ⟨_, rfl⟩
      · rename_i visited hinsert
        have hrange : (⟨f.offset, stop - f.offset⟩ : ByteRange) = ⟨f.offset, written.length⟩ := by
          rw [hstop, Nat.add_sub_cancel_left]
        obtain ⟨hfresh, hranges⟩ := Visited.insert?_eq_some_iff.1 hinsert
        rw [hrange] at hfresh hranges
        exact .inr ⟨⟨f.offset, f.name, f.depth, node, written⟩, stack, visited, hframe, hsound,
          hfresh, hranges⟩

/-- The items of a walk are the symbol of the next node, if there is one, and those of the walk
after it. -/
theorem toList_of_visits (h : t.Visits place stack visited) :
    Source.toList t =
      place.record?.toList.map .ok ++ Source.toList (t.after place stack visited) := by
  have hnext := next_of_visits h
  cases hrecord : place.record? with
  | some record =>
    rw [hrecord] at hnext
    exact Source.toList_eq_cons hnext
  | none =>
    rw [hrecord] at hnext
    exact Source.toList_congr hnext

theorem next_of_stack_eq_nil (hstack : t.stack = []) : next t = (none, t) := by
  rw [next]
  split
  · rfl
  · rename_i hcons
    rw [hstack] at hcons
    cases hcons

theorem toList_of_stack_eq_nil (hstack : t.stack = []) : Source.toList t = [] :=
  Source.toList_eq_nil (next_of_stack_eq_nil hstack)

theorem values_of_visits (h : t.Visits place stack visited) :
    Source.values t = place.record?.toList ++ Source.values (t.after place stack visited) := by
  unfold Source.values
  rw [toList_of_visits h, List.filterMap_append]
  cases place.record? <;> rfl

theorem values_of_stack_eq_nil (hstack : t.stack = []) : Source.values t = [] := by
  rw [Source.values, toList_of_stack_eq_nil hstack, List.filterMap_nil]

/-- **Walks are visits up to their end or to a failure**: what holds there and is kept backwards by
every visit holds of all walks. -/
theorem visit_induction {motive : Trie → Prop}
    (done : ∀ t, t.stack = [] → motive t)
    (fail : ∀ t e, next t = (some (.error e), { t with stack := [] }) → motive t)
    (visit : ∀ t place stack visited, t.Visits place stack visited →
      motive (t.after place stack visited) → motive t)
    (t : Trie) : motive t := by
  -- Every visit leaves fewer bytes that are not visited.
  induction hn : t.data.length - t.visited.covered using Nat.strong_induction_on generalizing t with
  | _ n ih =>
    by_cases hstack : t.stack = []
    · exact done t hstack
    · rcases next_error_or_visits hstack with ⟨e, hnext⟩ | ⟨place, stack, visited, hvisits⟩
      · exact fail t e hnext
      · exact visit t place stack visited hvisits (ih _ (hn ▸ hvisits.uncovered_lt) _ rfl)

/-! ### The trees of a walk -/

/-- Trees behind the frames of a walk that can be walked over: their nodes stand there, and no two
of them nor one of them and a visited range share a byte. -/
structure Pending (t : Trie) (branches : List Branch) : Prop where
  frames : branches.map (·.place.frame) = t.stack
  sound : ∀ place ∈ branches.flatMap Branch.places, place.Sound t.data t.maxDepth
  apart : (branches.flatMap Branch.places).Pairwise fun p q => p.range.Apart q.range
  fresh : ∀ place ∈ branches.flatMap Branch.places, ∀ r ∈ t.visited.ranges, r.Apart place.range

theorem flatMap_places_cons (b : Branch) (branches : List Branch) :
    (b :: branches).flatMap Branch.places =
      b.place :: (b.below ++ branches).flatMap Branch.places := by
  rw [List.flatMap_cons, Branch.places_eq, List.flatMap_append, List.cons_append]

/-- The root of the first tree is visited, and its children's trees come before the other trees. -/
theorem Pending.visits {b : Branch} {branches : List Branch} (h : t.Pending (b :: branches)) :
    ∃ stack visited, t.Visits b.place stack visited ∧
      (t.after b.place stack visited).Pending (b.below ++ branches) := by
  obtain ⟨hframes, hsound, hapart, hfresh⟩ := h
  rw [flatMap_places_cons] at hsound hapart hfresh
  rw [List.map_cons] at hframes
  rw [List.forall_mem_cons] at hsound hfresh
  rw [List.pairwise_cons] at hapart
  obtain ⟨visited, hranges⟩ :=
    Visited.exists_insert? hsound.1.size_pos hsound.1.stop_le hfresh.1
  refine ⟨branches.map (·.place.frame), visited, ⟨hframes.symm, hsound.1, hfresh.1, hranges⟩,
    ⟨?_, hsound.2, hapart.2, ?_⟩⟩
  · rw [List.map_append, Branch.map_frame_below]
    rfl
  · intro place hplace r hr
    rw [show (t.after _ _ _).visited.ranges = visited.ranges from rfl, hranges,
      Visited.mem_insertSorted] at hr
    rcases hr with rfl | hr
    · exact hapart.1 place hplace
    · exact hfresh.2 place hplace r hr

/-- Trees for the walk after a visit make trees for the walk before it. -/
theorem Visits.exists_pending (h : t.Visits place stack visited) {branches : List Branch}
    (hpending : (t.after place stack visited).Pending branches) :
    ∃ branches, t.Pending branches := by
  obtain ⟨hframes, hsound, hapart, hfresh⟩ := hpending
  -- The trees of the children are the first ones, since their frames were pushed last.
  obtain ⟨below, rest, rfl, hbelow, hrest⟩ := List.map_eq_append_iff.1 hframes
  obtain ⟨b, rfl, rfl⟩ := Branch.exists_of_below hbelow
  have hranges {r : ByteRange} : r ∈ (t.after b.place stack visited).visited.ranges ↔
      r = b.place.range ∨ r ∈ t.visited.ranges := by
    rw [show (t.after _ _ _).visited.ranges = visited.ranges from rfl, h.ranges_eq,
      Visited.mem_insertSorted]
  refine ⟨b :: rest, ?_, ?_, ?_, ?_⟩
  · rw [List.map_cons, hrest, h.stack_eq]
  · rw [flatMap_places_cons, List.forall_mem_cons]
    exact ⟨h.sound, hsound⟩
  · rw [flatMap_places_cons, List.pairwise_cons]
    exact ⟨fun place hplace => hfresh place hplace _ (hranges.2 (.inl rfl)), hapart⟩
  · rw [flatMap_places_cons, List.forall_mem_cons]
    exact ⟨h.fresh, fun place hplace r hr => hfresh place hplace r (hranges.2 (.inr hr))⟩

/-- **A walk over trees finds their symbols in pre-order.** -/
theorem Pending.toList_eq {branches : List Branch} (h : t.Pending branches) :
    Source.toList t =
      ((branches.flatMap Branch.places).filterMap Place.record?).map .ok := by
  -- Every visit leaves one node less in the trees.
  induction hn : (branches.flatMap Branch.places).length generalizing t branches with
  | zero =>
    cases branches with
    | nil => exact toList_of_stack_eq_nil h.frames.symm
    | cons b branches =>
      rw [flatMap_places_cons] at hn
      cases hn
  | succ n ih =>
    cases branches with
    | nil => cases hn
    | cons b branches =>
      obtain ⟨stack, visited, hvisits, hpending⟩ := h.visits
      rw [flatMap_places_cons, List.length_cons, Nat.add_right_cancel_iff] at hn
      rw [toList_of_visits hvisits, ih hpending hn, flatMap_places_cons, List.filterMap_cons]
      cases b.place.record? <;> rfl

/-- **A walk that does not fail is one over trees.** -/
theorem exists_pending (h : ∀ e, .error e ∉ Source.toList t) : ∃ branches, t.Pending branches := by
  induction t using visit_induction with
  | done t hstack => exact ⟨[], hstack.symm, by simp, .nil, by simp⟩
  | fail t e hnext =>
    refine absurd ?_ (h e)
    rw [Source.toList_eq_cons hnext]
    exact List.mem_cons_self
  | visit t place stack visited hvisits ih =>
    rw [toList_of_visits hvisits] at h
    obtain ⟨branches, hpending⟩ := ih fun e he => h e (List.mem_append_right _ he)
    exact hvisits.exists_pending hpending

end Trie

/-! ### The walk over a whole trie -/

theorem trie_stack {data : Bytes} (hdata : data ≠ []) (maxDepth : Nat) :
    (trie data maxDepth).stack = [⟨0, [], 0⟩] := by
  unfold trie
  rw [List.isEmpty_eq_false_iff.2 hdata]
  rfl

theorem Tree.LaidOut.data_ne_nil {data : Bytes} {maxDepth : Nat} {tree : Tree}
    (h : tree.LaidOut data maxDepth) : data ≠ [] := by
  rintro rfl
  have hroot := h.sound _ (show (Branch.mk [] 0 tree).place ∈ (Branch.mk [] 0 tree).places by
    rw [Branch.places_eq]
    exact List.mem_cons_self)
  have := hroot.size_pos
  have := hroot.stop_le
  unfold ByteRange.stop at this
  simp only [List.length_nil] at this
  omega

/-- The walk over a byte string starts with a tree that is laid out there. -/
theorem pending_trie_iff {data : Bytes} {maxDepth : Nat} {tree : Tree} (hdata : data ≠ []) :
    (trie data maxDepth).Pending [⟨[], 0, tree⟩] ↔ tree.LaidOut data maxDepth := by
  have hplaces : [Branch.mk [] 0 tree].flatMap Branch.places = tree.places [] 0 :=
    List.flatMap_singleton ..
  constructor
  · rintro ⟨hframes, hsound, hapart, -⟩
    rw [hplaces] at hsound hapart
    rw [trie_stack hdata] at hframes
    exact ⟨(Frame.mk.inj (List.cons.inj hframes).1).1, hsound, hapart⟩
  · rintro ⟨hstart, hsound, hapart⟩
    refine ⟨?_, ?_, ?_, ?_⟩
    · rw [trie_stack hdata, ← hstart]
      rfl
    · rw [hplaces]
      exact hsound
    · rw [hplaces]
      exact hapart
    · intro _ _ r hr
      cases hr

/-- **A walk over a byte string fails unless a tree is laid out there, and else finds the symbols of
the tree in pre-order.** -/
theorem toList_trie_eq_records (data : Bytes) (maxDepth : Nat) :
    ((∀ e, .error e ∉ Source.toList (trie data maxDepth)) ↔
        data = [] ∨ ∃ tree : Tree, tree.LaidOut data maxDepth) ∧
      (data = [] → Source.toList (trie data maxDepth) = []) ∧
      ∀ tree : Tree, tree.LaidOut data maxDepth →
        Source.toList (trie data maxDepth) = tree.records.map .ok := by
  have hrecords (tree : Tree) (h : tree.LaidOut data maxDepth) :
      Source.toList (trie data maxDepth) = tree.records.map .ok := by
    rw [((pending_trie_iff h.data_ne_nil).2 h).toList_eq, List.flatMap_singleton]
    rfl
  have hempty (h : data = []) : Source.toList (trie data maxDepth) = [] := by
    subst h
    exact Trie.toList_of_stack_eq_nil rfl
  refine ⟨⟨fun h => ?_, ?_⟩, hempty, hrecords⟩
  · by_cases hdata : data = []
    · exact .inl hdata
    · obtain ⟨branches, hpending⟩ := Trie.exists_pending h
      have hframes := hpending.frames
      rw [trie_stack hdata, List.map_eq_singleton_iff] at hframes
      obtain ⟨⟨name, depth, tree⟩, rfl, hframe⟩ := hframes
      obtain ⟨-, hname, hdepth⟩ := Frame.mk.inj hframe
      rw [show name = [] from hname, show depth = 0 from hdepth] at hpending
      exact .inr ⟨tree, (pending_trie_iff hdata).1 hpending⟩
  · rintro (hdata | ⟨tree, htree⟩) e he
    · rw [hempty hdata] at he
      cases he
    · rw [hrecords tree htree, List.mem_map] at he
      obtain ⟨record, -, he⟩ := he
      cases he

/-- The node of a symbol without children: the size of its terminal information, that information,
and the number of its children. -/
theorem Node.written_leaf {terminal : Terminal} {bs : Bytes} (size : Bytes)
    (hsize : Leb128.Unsigned bs.length size) (h : terminal.Written bs) :
    Node.Written ⟨some terminal, []⟩ (size ++ (bs ++ [0])) :=
  ⟨size, bs, [], 0, hsize, h, rfl, ⟨[], .nil, rfl⟩, rfl⟩

/-- A tree with six symbols, of which one leads to another: a weak definition, `w`, and a
thread-local one, `wx`; two re-exports, `r` with another name and `s`, weak as well, with the same
one; a definition that a resolver chooses, `t`; and an absolute one with a static resolver, `a`. -/
def exampleTree : Tree where
  start := 0
  written := [0, 5, 119, 0, 17, 114, 0, 28, 115, 0, 35, 116, 0, 40, 97, 0, 45]
  terminal := none
  children := [
    ([119],
      { start := 17
        written := [2, 4, 16, 1, 120, 0, 24]
        terminal := some ⟨⟨true, false, false, false⟩, .definition .regular 16 none⟩
        children := [([120],
          { start := 24
            written := [2, 1, 32, 0]
            terminal := some ⟨⟨false, false, false, false⟩, .definition .threadLocal 32 none⟩
            children := [] })] }),
    ([114],
      { start := 28
        written := [5, 8, 2, 95, 111, 0, 0]
        terminal := some ⟨⟨false, true, false, false⟩, .reexport 2 (some "_o")⟩
        children := [] }),
    ([115],
      { start := 35
        written := [3, 12, 1, 0, 0]
        terminal := some ⟨⟨true, true, false, false⟩, .reexport 1 none⟩
        children := [] }),
    ([116],
      { start := 40
        written := [3, 16, 16, 48, 0]
        terminal := some ⟨⟨false, false, true, false⟩, .definition .regular 16 (some 48)⟩
        children := [] }),
    ([97],
      { start := 45
        written := [3, 34, 128, 32, 0]
        terminal := some ⟨⟨false, false, false, true⟩, .definition .absolute 4096 none⟩
        children := [] })]

/-- The bytes of the nodes, one behind the other. -/
def exampleTrie : Bytes := [
  0, 5, 119, 0, 17, 114, 0, 28, 115, 0, 35, 116, 0, 40, 97, 0, 45,
  2, 4, 16, 1, 120, 0, 24,
  2, 1, 32, 0,
  5, 8, 2, 95, 111, 0, 0,
  3, 12, 1, 0, 0,
  3, 16, 16, 48, 0,
  3, 34, 128, 32, 0]

/-- All nodes of the tree are written as they are to be. -/
theorem exampleTree_written :
    ∀ place ∈ exampleTree.places [] 0, place.node.Written place.written := by
  have hroot : exampleTree.node.Written exampleTree.written :=
    ⟨[0], [], _, 5, by decide, rfl, rfl,
      ⟨[[119, 0, 17], [114, 0, 28], [115, 0, 35], [116, 0, 40], [97, 0, 45]],
        .cons ⟨[17], by decide, by decide, rfl⟩ <| .cons ⟨[28], by decide, by decide, rfl⟩ <|
        .cons ⟨[35], by decide, by decide, rfl⟩ <| .cons ⟨[40], by decide, by decide, rfl⟩ <|
        .cons ⟨[45], by decide, by decide, rfl⟩ .nil, rfl⟩, rfl⟩
  have hweak : Node.Written ⟨some ⟨⟨true, false, false, false⟩, .definition .regular 16 none⟩,
      [⟨[120], 24⟩]⟩ [2, 4, 16, 1, 120, 0, 24] :=
    ⟨[2], [4, 16], [120, 0, 24], 1, by decide,
      ⟨.regular, [4], [16], by decide, .definition rfl rfl (by decide), rfl⟩, rfl,
      ⟨[[120, 0, 24]], .cons ⟨[24], by decide, by decide, rfl⟩ .nil, rfl⟩, rfl⟩
  have hthreadLocal : Terminal.Written ⟨⟨false, false, false, false⟩,
      .definition .threadLocal 32 none⟩ [1, 32] :=
    ⟨.threadLocal, [1], [32], by decide, .definition rfl rfl (by decide), rfl⟩
  have hotherName : Terminal.Written ⟨⟨false, true, false, false⟩, .reexport 2 (some "_o")⟩
      [8, 2, 95, 111, 0] := by
    have hname : [95, 111] ≠ ([] : Bytes) ∧ 0 ∉ ([95, 111] : Bytes) := by decide
    exact ⟨.regular, [8], [2, 95, 111, 0], by decide,
      .otherName rfl rfl (show Leb128.Unsigned 2 [2] by decide) hname.1 hname.2, rfl⟩
  have hsameName : Terminal.Written ⟨⟨true, true, false, false⟩, .reexport 1 none⟩ [12, 1, 0] :=
    ⟨.regular, [12], [1, 0], by decide,
      .sameName rfl rfl (show Leb128.Unsigned 1 [1] by decide), rfl⟩
  have hresolved : Terminal.Written ⟨⟨false, false, true, false⟩,
      .definition .regular 16 (some 48)⟩ [16, 16, 48] :=
    ⟨.regular, [16], [16, 48], by decide, .resolved rfl rfl (show Leb128.Unsigned 16 [16] by decide)
      (show Leb128.Unsigned 48 [48] by decide), rfl⟩
  have habsolute : Terminal.Written ⟨⟨false, false, false, true⟩,
      .definition .absolute 4096 none⟩ [34, 128, 32] :=
    ⟨.absolute, [34], [128, 32], by decide, .definition rfl rfl (by decide), rfl⟩
  simp only [exampleTree, Tree.places, Tree.placesBelow, List.forall_mem_cons, List.append_nil,
    List.cons_append, List.nil_append]
  exact ⟨hroot, hweak, Node.written_leaf [2] (by decide) hthreadLocal,
    Node.written_leaf [5] (by decide) hotherName, Node.written_leaf [3] (by decide) hsameName,
    Node.written_leaf [3] (by decide) hresolved, Node.written_leaf [3] (by decide) habsolute,
    List.forall_mem_nil _⟩

theorem exampleTree_laidOut : exampleTree.LaidOut exampleTrie 2 where
  start_eq := rfl
  sound place hplace := by
    have hfields : ∀ place ∈ exampleTree.places [] 0,
        exampleTrie.slice? place.start place.written.length = some place.written ∧
          place.depth ≤ 2 ∧ (place.node.terminal.isSome → place.name ≠ []) := by
      decide +kernel
    obtain ⟨hslice, hdepth, hname⟩ := hfields place hplace
    exact ⟨hslice, exampleTree_written place hplace, hdepth, hname⟩
  apart := by
    have hoverlaps : (exampleTree.places [] 0).Pairwise fun p q => ¬p.range.Overlaps q.range := by
      decide +kernel
    exact hoverlaps.imp ByteRange.not_overlaps_iff.1

/-- The symbols are found, each in front of those that its node leads to. -/
theorem toList_trie_example :
    exampleTree.LaidOut exampleTrie 2 ∧ Source.toList (trie exampleTrie 2) = [
      .ok ⟨"w", ⟨true, false, false, false⟩, .definition .regular 16 none, 17⟩,
      .ok ⟨"wx", ⟨false, false, false, false⟩, .definition .threadLocal 32 none, 24⟩,
      .ok ⟨"r", ⟨false, true, false, false⟩, .reexport 2 (some "_o"), 28⟩,
      .ok ⟨"s", ⟨true, true, false, false⟩, .reexport 1 none, 35⟩,
      .ok ⟨"t", ⟨false, false, true, false⟩, .definition .regular 16 (some 48), 40⟩,
      .ok ⟨"a", ⟨false, false, false, true⟩, .definition .absolute 4096 none, 45⟩] := by
  refine ⟨exampleTree_laidOut, ?_⟩
  rw [(toList_trie_eq_records _ _).2.2 exampleTree exampleTree_laidOut]
  decide +kernel

end MachO.Export
