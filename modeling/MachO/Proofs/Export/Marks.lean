import Mathlib.Data.List.Nodup
import MachO.Proofs.Export.Walk
import MachO.Proofs.Stream.Drain

/-!
# Marks in a plain map

The ranges of `Export.Visited` lie behind each other because its type says so.  Here the same walk
marks its nodes in a plain map, of which nothing is known at first: the marks stay apart since a
node is marked only if the two nearest marks leave room for it, and the two nearest marks tell of
all others only as long as the marks are apart.

* `Export.meetsNearest`: whether a range shares a byte with the nearest mark on one of its sides;
* `Export.Separate`: marks apart from each other, with `Export.Separate.meetsNearest_iff`;
* `Export.Marking`: a walk with marks, node by node;
* `Export.Marking.separate_steps`: its marks are separate after any number of nodes;
* `Export.Trie.step_marking`: a node is visited alike, whichever way the visited ones are kept;
* `Export.meetsNearest_steps`: the test is exact in every state of a walk.
-/

namespace MachO.Export

/-! ### Marks -/

/-- Whether a range shares a byte with the nearest mark on one of its sides. -/
def meetsNearest (r : ByteRange) (marks : List ByteRange) : Bool :=
  (Visited.before? r.start marks).any (r.start < ·.stop) ||
    (Visited.after? r.start marks).any (·.start < r.stop)

/-- Marks a range, in place of a mark with the same start. -/
def mark (r : ByteRange) (marks : List ByteRange) : List ByteRange :=
  Visited.insertSorted r (marks.filter (·.start ≠ r.start))

/-- Of the marks that start at or before a position, none starts later. -/
def NearestBefore (p : Nat) (marks : List ByteRange) (s : ByteRange) : Prop :=
  s ∈ marks ∧ s.start ≤ p ∧ ∀ t ∈ marks, t.start ≤ p → t.start ≤ s.start

/-- Of the marks that start at or behind a position, none starts earlier. -/
def NearestAfter (p : Nat) (marks : List ByteRange) (s : ByteRange) : Prop :=
  s ∈ marks ∧ p ≤ s.start ∧ ∀ t ∈ marks, p ≤ t.start → s.start ≤ t.start

/-- Marks that are not empty and lie behind each other in the first `size` positions. -/
structure Separate (size : Nat) (marks : List ByteRange) : Prop where
  sorted : marks.Pairwise fun a b => a.stop ≤ b.start
  size_pos : ∀ r ∈ marks, 0 < r.size
  stop_le : ∀ r ∈ marks, r.stop ≤ size

namespace Separate

variable {size p : Nat} {marks : List ByteRange} {r s t : ByteRange}

/-- The marks as visited ranges. -/
def visited (h : Separate size marks) : Visited size := ⟨marks, h.sorted, h.size_pos, h.stop_le⟩

theorem pairwise_apart (h : Separate size marks) : marks.Pairwise ByteRange.Apart := by
  refine h.sorted.imp ?_
  intro a b hab p ha hb
  exact absurd (ha.2.trans_le (hab.trans hb.1)) (lt_irrefl p)

/-- No two marks have the same start. -/
theorem eq_of_start_eq (h : Separate size marks) (hs : s ∈ marks) (ht : t ∈ marks)
    (hstart : s.start = t.start) : s = t := by
  have hnodup : (marks.map ByteRange.start).Nodup := by
    rw [List.Nodup, List.pairwise_map]
    refine h.sorted.imp_of_mem ?_
    intro a b ha _ hab
    have := h.size_pos a ha
    unfold ByteRange.stop at hab
    omega
  exact List.inj_on_of_nodup_map hnodup hs ht hstart

theorem before?_eq_some_iff (h : Separate size marks) :
    Visited.before? p marks = some s ↔ NearestBefore p marks s := by
  have hnearest {r : ByteRange} (hr : Visited.before? p marks = some r) :
      NearestBefore p marks r := by
    obtain ⟨hmem, hstart, hall⟩ := Visited.before?_eq_some h.sorted hr
    refine ⟨hmem, hstart, fun t ht htp => ?_⟩
    rcases hall t ht htp with rfl | hle
    · exact le_refl _
    · exact (Nat.le_add_right _ _).trans hle
  refine ⟨hnearest, fun ⟨hs, hsp, hlast⟩ => ?_⟩
  obtain ⟨r, hr⟩ := Visited.before?_isSome h.sorted hs hsp
  obtain ⟨hmem, hrp, hlast'⟩ := hnearest hr
  rw [hr, h.eq_of_start_eq hmem hs (le_antisymm (hlast r hmem hrp) (hlast' s hs hsp))]

theorem after?_eq_some_iff (h : Separate size marks) :
    Visited.after? p marks = some s ↔ NearestAfter p marks s := by
  refine ⟨Visited.after?_eq_some h.sorted, fun ⟨hs, hps, hfirst⟩ => ?_⟩
  obtain ⟨r, hr⟩ := Visited.after?_isSome hs hps
  obtain ⟨hmem, hpr, hfirst'⟩ := Visited.after?_eq_some h.sorted hr
  rw [hr, h.eq_of_start_eq hmem hs (le_antisymm (hfirst' s hs hps) (hfirst r hmem hpr))]

/-- The marks that the test looks at are the nearest ones. -/
theorem meetsNearest_iff_nearest (h : Separate size marks) :
    meetsNearest r marks = true ↔
      (∃ s, NearestBefore r.start marks s ∧ r.start < s.stop) ∨
        ∃ s, NearestAfter r.start marks s ∧ s.start < r.stop := by
  simp only [meetsNearest, Bool.or_eq_true, Option.any_eq_true, decide_eq_true_eq,
    h.before?_eq_some_iff, h.after?_eq_some_iff]

/-- **The nearest marks tell of all of them.** -/
theorem meetsNearest_iff (h : Separate size marks) (hr : 0 < r.size) :
    meetsNearest r marks = true ↔ ∃ s ∈ marks, ∃ p ∈ s, p ∈ r := by
  have hoverlaps : meetsNearest r marks = true ↔ ∃ s ∈ marks, s.Overlaps r :=
    h.visited.overlaps_iff hr
  simp only [hoverlaps, ByteRange.overlaps_iff]

/-- This is not so of marks that share bytes: the second one hides the first. -/
example : meetsNearest ⟨5, 1⟩ [⟨0, 10⟩, ⟨2, 1⟩] = false := by decide

theorem apart_of_meetsNearest_eq_false (h : Separate size marks) (hr : 0 < r.size)
    (hfree : meetsNearest r marks = false) : ∀ s ∈ marks, s.Apart r :=
  (h.visited.overlaps_eq_false_iff hr).1 hfree

/-- A range apart from all marks replaces none of them. -/
theorem mark_eq (h : Separate size marks) (hr : 0 < r.size) (hapart : ∀ s ∈ marks, s.Apart r) :
    mark r marks = Visited.insertSorted r marks := by
  unfold mark
  congr 1
  refine List.filter_eq_self.2 fun s hs => decide_eq_true fun hstart => ?_
  have hfirst := ByteRange.start_mem (ByteRange.not_isEmpty_of_pos (h.size_pos s hs))
  have hfirst' := ByteRange.start_mem (ByteRange.not_isEmpty_of_pos hr)
  exact hapart s hs _ hfirst (hstart ▸ hfirst')

/-- **Marks stay separate** when a range is marked that shares no byte with the nearest ones. -/
theorem marked (h : Separate size marks) (hr : 0 < r.size) (hstop : r.stop ≤ size)
    (hfree : meetsNearest r marks = false) : Separate size (mark r marks) := by
  have hapart := h.apart_of_meetsNearest_eq_false hr hfree
  rw [h.mark_eq hr hapart]
  constructor
  case sorted =>
    exact Visited.pairwise_insertSorted h.sorted hr h.size_pos fun s hs =>
      ByteRange.not_overlaps_iff.2 (hapart s hs)
  case size_pos =>
    intro s hs
    rcases Visited.mem_insertSorted.1 hs with rfl | hs
    · exact hr
    · exact h.size_pos s hs
  case stop_le =>
    intro s hs
    rcases Visited.mem_insertSorted.1 hs with rfl | hs
    · exact hstop
    · exact h.stop_le s hs

end Separate

/-! ### Walks with marks -/

/-- A walk under way, with a mark for every node that was visited. -/
structure Marking where
  data : Bytes
  maxDepth : Nat
  stack : List Frame
  marks : List ByteRange

namespace Marking

/-- Reads the node of a frame, and returns it with its range, unless the nearest marks leave no room
for the node. -/
def visit (w : Marking) (f : Frame) : Except DecodeError (Node × ByteRange) :=
  if w.data.length ≤ f.offset ∨ meetsNearest ⟨f.offset, 1⟩ w.marks then
    .error (.nodeOverlap f.offset)
  else if w.maxDepth < f.depth then .error (.trieTooDeep f.offset w.maxDepth)
  else do
    let (node, stop) ← Node.read w.data f.offset f.name
    let range : ByteRange := ⟨f.offset, stop - f.offset⟩
    if meetsNearest range w.marks then .error (.nodeOverlap f.offset) else .ok (node, range)

/-- Visits the next node: what it yields, and the walk after it. -/
def step (w : Marking) : Option (Except DecodeError Record) × Marking :=
  match w.stack with
  | [] => (none, w)
  | f :: stack =>
    match w.visit f with
    | .error e => (some (.error e), { w with stack := [] })
    | .ok (node, range) =>
      ((f.record? node).map .ok,
        { w with stack := f.children node ++ stack, marks := mark range w.marks })

/-- The walk after a number of nodes. -/
def steps : (count : Nat) → Marking → Marking
  | 0, w => w
  | count + 1, w => steps count w.step.2

/-- What a number of nodes yield. -/
def items : (count : Nat) → Marking → List (Except DecodeError Record)
  | 0, _ => []
  | count + 1, w => w.step.1.toList ++ items count w.step.2

/-- The walk at its start. -/
def start (data : Bytes) (maxDepth : Nat) : Marking where
  data
  maxDepth
  stack := if data.isEmpty then [] else [⟨0, [], 0⟩]
  marks := []

variable {w : Marking}

theorem steps_add (count more : Nat) (w : Marking) :
    w.steps (count + more) = (w.steps count).steps more := by
  induction count generalizing w with
  | zero => rw [Nat.zero_add, steps]
  | succ count ih =>
    rw [Nat.succ_add]
    exact ih w.step.2

/-- A node that can be read takes bytes of the trie, none of which the nearest marks take. -/
theorem visit_eq_ok {f : Frame} {node : Node} {range : ByteRange}
    (h : w.visit f = .ok (node, range)) :
    0 < range.size ∧ range.stop ≤ w.data.length ∧ meetsNearest range w.marks = false := by
  unfold visit at h
  split at h
  · cases h
  · split at h
    · cases h
    · cases hread : Node.read w.data f.offset f.name with
      | error e =>
        rw [hread] at h
        cases h
      | ok read =>
        obtain ⟨node', stop⟩ := read
        obtain ⟨hstart, hstop⟩ := Node.read_eq_ok hread
        rw [hread] at h
        change (if _ then _ else _) = _ at h
        split at h
        · cases h
        · rename_i hfree
          cases h
          refine ⟨?_, ?_, Bool.not_eq_true _ ▸ hfree⟩
          · show 0 < stop - f.offset
            omega
          · show f.offset + (stop - f.offset) ≤ _
            omega

theorem data_step (w : Marking) : w.step.2.data = w.data := by
  unfold step
  split
  · rfl
  · split <;> rfl

/-- **A node leaves the marks separate.** -/
theorem separate_step (h : Separate w.data.length w.marks) :
    Separate w.step.2.data.length w.step.2.marks := by
  rw [data_step]
  unfold step
  split
  · exact h
  · split
    · exact h
    · rename_i hvisit
      obtain ⟨hpos, hstop, hfree⟩ := visit_eq_ok hvisit
      exact h.marked hpos hstop hfree

/-- **The marks are separate after any number of nodes** if they are so at first. -/
theorem separate_steps (h : Separate w.data.length w.marks) (count : Nat) :
    Separate (w.steps count).data.length (w.steps count).marks := by
  induction count generalizing w with
  | zero => exact h
  | succ count ih => exact ih (separate_step h)

theorem data_steps (count : Nat) (w : Marking) : (w.steps count).data = w.data := by
  induction count generalizing w with
  | zero => rfl
  | succ count ih => exact (ih w.step.2).trans w.data_step

theorem separate_start (data : Bytes) (maxDepth : Nat) :
    Separate (start data maxDepth).data.length (start data maxDepth).marks :=
  ⟨.nil, List.forall_mem_nil _, List.forall_mem_nil _⟩

end Marking

/-! ### The same walk -/

theorem Visited.insert?_eq_none_iff {size : Nat} {v : Visited size} {r : ByteRange}
    {hr : 0 < r.size} {hstop : r.stop ≤ size} :
    v.insert? r hr hstop = none ↔ v.overlaps r = true := by
  unfold insert?
  split
  · rename_i h
    exact ⟨fun _ => h, fun _ => rfl⟩
  · rename_i h
    exact ⟨fun hnone => absurd hnone (Option.some_ne_none _), fun hoverlaps => absurd hoverlaps h⟩

namespace Trie

variable {t : Trie}

/-- The walk with a mark for every visited range. -/
def marking (t : Trie) : Marking := ⟨t.data, t.maxDepth, t.stack, t.visited.ranges⟩

theorem separate_marking (t : Trie) : Separate t.marking.data.length t.marking.marks :=
  ⟨t.visited.sorted, t.visited.nonempty, t.visited.stop_le⟩

/-- The second test of a node is the one that comes with adding its range to the visited ones. -/
theorem visit_marking (t : Trie) (f : Frame) :
    t.marking.visit f = (t.visit f).bind fun (node, stop) =>
      if t.visited.overlaps ⟨f.offset, stop - f.offset⟩ then .error (.nodeOverlap f.offset)
      else .ok (node, ⟨f.offset, stop - f.offset⟩) := by
  unfold visit
  show (if t.data.length ≤ f.offset ∨ t.visited.overlaps ⟨f.offset, 1⟩ then _
    else if t.maxDepth < f.depth then _ else _) = _
  split
  · rfl
  · split <;> rfl

theorem visit_marking_of_insert? {f : Frame} {node : Node} {stop : Nat}
    {hpos : 0 < stop - f.offset} {hstop : f.offset + (stop - f.offset) ≤ t.data.length}
    {visited : Visited t.data.length} (hvisit : t.visit f = .ok (node, stop))
    (hinsert : t.visited.insert? ⟨f.offset, stop - f.offset⟩ hpos hstop = some visited) :
    t.marking.visit f = .ok (node, ⟨f.offset, stop - f.offset⟩) := by
  have hfree := (Visited.overlaps_eq_false_iff hpos).2 (Visited.insert?_eq_some_iff.1 hinsert).1
  rw [visit_marking, hvisit]
  exact if_neg (Bool.not_eq_true _ ▸ hfree)

theorem step_marking_of_error {f : Frame} {stack : List Frame} {e : DecodeError}
    (hstack : t.stack = f :: stack) (hvisit : t.marking.visit f = .error e) :
    t.marking.step = (some (.error e), { t with stack := [] }.marking) := by
  unfold Marking.step
  rw [show t.marking.stack = f :: stack from hstack]
  dsimp only
  rw [hvisit]
  rfl

theorem step_marking_of_ok {f : Frame} {stack : List Frame} {node : Node} {range : ByteRange}
    {hpos : 0 < range.size} {hstop : range.stop ≤ t.data.length} {visited : Visited t.data.length}
    (hstack : t.stack = f :: stack) (hvisit : t.marking.visit f = .ok (node, range))
    (hinsert : t.visited.insert? range hpos hstop = some visited) :
    t.marking.step = ((f.record? node).map .ok,
      { t with stack := f.children node ++ stack, visited }.marking) := by
  obtain ⟨hapart, hranges⟩ := Visited.insert?_eq_some_iff.1 hinsert
  have hmark : mark range t.marking.marks = visited.ranges :=
    (t.separate_marking.mark_eq hpos hapart).trans hranges.symm
  unfold Marking.step
  rw [show t.marking.stack = f :: stack from hstack]
  dsimp only
  rw [hvisit]
  dsimp only
  rw [hmark]
  rfl

/-- **A node is visited alike**, whichever way the visited ones are kept: what it yields ends the
draw, and else the draw goes on behind it with fewer bytes that are not visited. -/
theorem step_marking (t : Trie) :
    (t.stack = [] ∧ t.marking.step = (none, t.marking)) ∨
      ∃ t' : Trie, t.marking.step.2 = t'.marking ∧
        ((∃ item, t.marking.step.1 = some item ∧ next t = (some item, t')) ∨
          (t.marking.step.1 = none ∧ next t = next t' ∧
            t'.data.length - t'.visited.covered < t.data.length - t.visited.covered)) := by
  fun_cases next t with
  | case1 hstack =>
    refine .inl ⟨hstack, ?_⟩
    unfold Marking.step
    rw [show t.marking.stack = [] from hstack]
  | case2 f stack hstack e hvisit =>
    have hstep := step_marking_of_error hstack (e := e) (by rw [visit_marking, hvisit]; rfl)
    exact .inr ⟨_, congrArg Prod.snd hstep, .inl ⟨_, congrArg Prod.fst hstep, rfl⟩⟩
  | case3 f stack hstack node stop hvisit _ range hpos hstop hinsert =>
    have hvisit' : t.marking.visit f = .error (.nodeOverlap f.offset) := by
      rw [visit_marking, hvisit]
      exact if_pos (Visited.insert?_eq_none_iff.1 hinsert)
    have hstep := step_marking_of_error hstack hvisit'
    exact .inr ⟨_, congrArg Prod.snd hstep, .inl ⟨_, congrArg Prod.fst hstep, rfl⟩⟩
  | case4 f stack hstack node stop hvisit _ range hpos hstop visited hinsert _ t' record hrecord =>
    have hstep := step_marking_of_ok hstack (visit_marking_of_insert? hvisit hinsert) hinsert
    rw [hrecord] at hstep
    exact .inr ⟨t', congrArg Prod.snd hstep, .inl ⟨_, congrArg Prod.fst hstep, rfl⟩⟩
  | case5 f stack hstack node stop hvisit _ range hpos hstop visited hinsert hlt t' hrecord =>
    have hstep := step_marking_of_ok hstack (visit_marking_of_insert? hvisit hinsert) hinsert
    rw [hrecord] at hstep
    exact .inr ⟨t', congrArg Prod.snd hstep, .inr ⟨congrArg Prod.fst hstep, rfl, hlt⟩⟩

/-- The items of a walk are those of its next node, and those of the walk behind it. -/
theorem exists_toList_step (t : Trie) :
    ∃ t' : Trie, t'.marking = t.marking.step.2 ∧
      Source.toList t = t.marking.step.1.toList ++ Source.toList t' := by
  rcases t.step_marking with ⟨-, hstep⟩ | ⟨t', hmarking, ⟨item, hitem, hnext⟩ | ⟨hitem, hnext, -⟩⟩
  · rw [hstep]
    exact ⟨t, rfl, rfl⟩
  · rw [hitem]
    exact ⟨t', hmarking.symm, Source.toList_eq_cons hnext⟩
  · rw [hitem]
    exact ⟨t', hmarking.symm, Source.toList_congr hnext⟩

/-- After any number of nodes there is a walk that yields the rest of the items. -/
theorem exists_toList_steps (count : Nat) (t : Trie) :
    ∃ t' : Trie, t'.marking = t.marking.steps count ∧
      Source.toList t = t.marking.items count ++ Source.toList t' := by
  induction count generalizing t with
  | zero => exact ⟨t, rfl, rfl⟩
  | succ count ih =>
    obtain ⟨t', hmarking, htoList⟩ := t.exists_toList_step
    obtain ⟨t'', hmarking', htoList'⟩ := ih t'
    rw [hmarking] at hmarking' htoList'
    refine ⟨t'', hmarking', ?_⟩
    rw [htoList, htoList', ← List.append_assoc]
    rfl

/-- A draw passes through the nodes up to the first that yields something. -/
theorem exists_steps_next (t : Trie) : ∃ count, (next t).2.marking = t.marking.steps count := by
  induction hn : t.data.length - t.visited.covered using Nat.strong_induction_on generalizing t with
  | _ n ih =>
    rcases t.step_marking with
      ⟨hstack, -⟩ | ⟨t', hmarking, ⟨item, -, hnext⟩ | ⟨-, hnext, hlt⟩⟩
    · refine ⟨0, ?_⟩
      rw [next_of_stack_eq_nil hstack]
      rfl
    · refine ⟨1, ?_⟩
      rw [hnext]
      exact hmarking.symm
    · obtain ⟨count, hcount⟩ := ih _ (hn ▸ hlt) t' rfl
      refine ⟨count + 1, ?_⟩
      rw [hnext, hcount, ← hmarking]
      rfl

/-- Draws pass through states of the walk with marks. -/
theorem exists_steps_drop (count : Nat) (t : Trie) :
    ∃ nodes, (Source.drop count t).marking = t.marking.steps nodes := by
  induction count generalizing t with
  | zero => exact ⟨0, rfl⟩
  | succ count ih =>
    obtain ⟨first, hfirst⟩ := t.exists_steps_next
    obtain ⟨rest, hrest⟩ := ih (next t).2
    refine ⟨first + rest, ?_⟩
    rw [Marking.steps_add, ← hfirst]
    exact hrest

end Trie

/-- **In every state of a walk the nearest marks tell of all of them.**  The walk with marks starts
with none, and its test looks at the nearest mark on either side of a range only.  After any number
of nodes its marks are not empty, lie in the trie and have no position in common, so that the test
finds a range to share a byte with one of the nearest marks if it shares one with any.  It is the
walk that is drawn from: the two pass through the same states and yield the same items. -/
theorem meetsNearest_steps (data : Bytes) (maxDepth nodes : Nat) :
    let w := (Marking.start data maxDepth).steps nodes
    (∀ r ∈ w.marks, 0 < r.size ∧ r.stop ≤ data.length) ∧
    w.marks.Pairwise ByteRange.Apart ∧
    (∀ r : ByteRange, 0 < r.size →
      (meetsNearest r w.marks = true ↔ ∃ s ∈ w.marks, ∃ p ∈ s, p ∈ r) ∧
      (meetsNearest r w.marks = true ↔
        (∃ s, NearestBefore r.start w.marks s ∧ r.start < s.stop) ∨
          ∃ s, NearestAfter r.start w.marks s ∧ s.start < r.stop)) ∧
    (∃ t : Trie, t.marking = w ∧
      (∀ r, t.visited.overlaps r = meetsNearest r w.marks) ∧
      Source.toList (trie data maxDepth) =
        (Marking.start data maxDepth).items nodes ++ Source.toList t) ∧
    ∀ count, ∃ nodes, (Source.drop count (trie data maxDepth)).marking =
      (Marking.start data maxDepth).steps nodes := by
  have hseparate := Marking.separate_steps (Marking.separate_start data maxDepth) nodes
  rw [Marking.data_steps] at hseparate
  refine ⟨fun r hr => ⟨hseparate.size_pos r hr, hseparate.stop_le r hr⟩, hseparate.pairwise_apart,
    fun r hr => ⟨hseparate.meetsNearest_iff hr, hseparate.meetsNearest_iff_nearest⟩, ?_, ?_⟩
  · obtain ⟨t, hmarking, htoList⟩ := (trie data maxDepth).exists_toList_steps nodes
    refine ⟨t, hmarking, fun r => ?_, htoList⟩
    rw [show (Marking.start data maxDepth) = (trie data maxDepth).marking from rfl, ← hmarking]
    rfl
  · exact fun count => (trie data maxDepth).exists_steps_drop count

/-- The second of two nodes is found by one byte of it, and nothing is found behind it. -/
theorem meetsNearest_two_nodes :
    let w := (Marking.start [0, 1, 97, 0, 5, 2, 0, 16, 0] 1).steps 2
    w.marks = [⟨0, 5⟩, ⟨5, 4⟩] ∧ (∃ s ∈ w.marks, ∃ p ∈ s, p ∈ (⟨8, 3⟩ : ByteRange)) ∧
      ¬∃ s ∈ w.marks, ∃ p ∈ s, p ∈ (⟨9, 3⟩ : ByteRange) := by
  have hmarks : ((Marking.start [0, 1, 97, 0, 5, 2, 0, 16, 0] 1).steps 2).marks =
      [⟨0, 5⟩, ⟨5, 4⟩] := by decide +kernel
  have hexact := (meetsNearest_steps [0, 1, 97, 0, 5, 2, 0, 16, 0] 1 2).2.2.1
  refine ⟨hmarks, (hexact ⟨8, 3⟩ (by decide)).1.1 ?_, fun hmeets => ?_⟩
  · rw [hmarks]
    decide
  · have hfound := (hexact ⟨9, 3⟩ (by decide)).1.2 hmeets
    rw [hmarks] at hfound
    revert hfound
    decide

end MachO.Export
