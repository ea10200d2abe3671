import Mathlib.Algebra.Order.BigOperators.Group.List
import MachO.Proofs.Export.Walk
import MachO.Proofs.Stream.Drain

/-!
# The nodes that a walk completes

A walk over any bytes comes to its end, since every node that it completes takes bytes which no
other one takes.

* `Export.Path`, `Export.Record.Witnessed`: the labels that lead from the root to a node, and to the
  node of a symbol;
* `Export.Trie.Completed`: the nodes that a walk has read on the way to a state;
* `Export.Trie.Completed.after`, `Export.Trie.Completed.next`, `Export.Trie.Completed.drop`: a
  visit, a draw and any number of draws add nodes to them;
* `Export.Trie.Completed.two_mul_length_add_le`: the bytes that these nodes take;
* `Export.walk_bounded`: how many nodes and symbols there can be, and where the symbols come from.
-/

namespace MachO.Export

/-! ### Paths -/

/-- A node stands at a position of a byte string. -/
def Node.StandsAt (data : Bytes) (start : Nat) (node : Node) : Prop :=
  ∃ written : Bytes, data.slice? start written.length = some written ∧ node.Written written

/-- Labels lead from the node at the beginning of a byte string to a node at a position. -/
inductive Path (data : Bytes) : (labels : List Bytes) → (start : Nat) → Node → Prop
  | root {node : Node} (hnode : node.StandsAt data 0) : Path data [] 0 node
  | child {labels : List Bytes} {start : Nat} {node next : Node} {edge : Edge}
      (hpath : Path data labels start node) (hedge : edge ∈ node.edges)
      (hnext : next.StandsAt data edge.child) : Path data (labels ++ [edge.label]) edge.child next

/-- The frame is that of the root or of a child of a node that labels lead to. -/
inductive Frame.Reached (data : Bytes) : Frame → Prop
  | root : Reached data ⟨0, [], 0⟩
  | child {labels : List Bytes} {start : Nat} {node : Node} {edge : Edge}
      (hpath : Path data labels start node) (hedge : edge ∈ node.edges) :
      Reached data ⟨edge.child, labels.flatten ++ edge.label, labels.length + 1⟩

/-- Labels lead to the node, one for each edge, and make its name. -/
def Place.Reached (data : Bytes) (place : Place) : Prop :=
  ∃ labels, Path data labels place.start place.node ∧ labels.flatten = place.name ∧
    labels.length = place.depth

/-- A symbol has the name that labels make, at most so many as may be, and the terminal information
of the node that they lead to. -/
def Record.Witnessed (data : Bytes) (maxDepth : Nat) (record : Record) : Prop :=
  ∃ labels node terminal, Path data labels record.nodeOffset node ∧ labels.length ≤ maxDepth ∧
    labels.flatten ≠ [] ∧ record.name = Text.Utf8.decodeLossy labels.flatten ∧
      node.terminal = some terminal ∧ record.flags = terminal.flags ∧
        record.target = terminal.target

variable {data : Bytes} {maxDepth : Nat} {place : Place}

theorem Place.Sound.standsAt (h : place.Sound data maxDepth) :
    place.node.StandsAt data place.start := ⟨place.written, h.slice, h.written⟩

theorem Place.reached_of_frame (h : place.frame.Reached data) (hsound : place.Sound data maxDepth) :
    place.Reached data := by
  obtain ⟨start, name, depth, node, written⟩ := place
  cases h with
  | root => exact ⟨[], .root hsound.standsAt, rfl, rfl⟩
  | @child labels _ _ edge hpath hedge =>
    refine ⟨labels ++ [edge.label], .child hpath hedge hsound.standsAt, ?_, ?_⟩
    · exact List.flatten_append.trans (congrArg _ List.flatten_singleton)
    · exact List.length_append.trans (congrArg _ List.length_singleton)

theorem Place.Reached.children (h : place.Reached data) :
    ∀ f ∈ place.frame.children place.node, f.Reached data := by
  intro f hf
  obtain ⟨labels, hpath, hname, hdepth⟩ := h
  obtain ⟨edge, hedge, rfl⟩ := List.mem_map.1 hf
  show Frame.Reached data ⟨edge.child, place.name ++ edge.label, place.depth + 1⟩
  rw [← hname, ← hdepth]
  exact .child hpath hedge

theorem Place.Reached.witnessed (h : place.Reached data) (hsound : place.Sound data maxDepth)
    {record : Record} (hrecord : place.record? = some record) :
    record.Witnessed data maxDepth := by
  obtain ⟨labels, hpath, hname, hdepth⟩ := h
  obtain ⟨terminal, hterminal, rfl⟩ := Option.map_eq_some_iff.1 hrecord
  refine ⟨labels, place.node, terminal, hpath, hdepth ▸ hsound.depth_le, ?_, ?_, hterminal, rfl,
    rfl⟩
  · rw [hname]
    exact hsound.named (by rw [hterminal]; rfl)
  · rw [hname]

/-! ### What a walk has completed -/

theorem Visited.perm_insertSorted (r : ByteRange) (ranges : List ByteRange) :
    (insertSorted r ranges).Perm (r :: ranges) := by
  induction ranges with
  | nil => exact .refl _
  | cons s rest ih =>
    unfold insertSorted
    split
    · exact (ih.cons s).trans (.swap r s rest)
    · exact .refl _

theorem Visited.total_eq_sum (ranges : List ByteRange) :
    total ranges = (ranges.map ByteRange.size).sum := by
  induction ranges with
  | nil => rfl
  | cons r rest ih => rw [total, ih, List.map_cons, List.sum_cons]

namespace Trie

/-- A walk over a byte string has completed some nodes: all of them stand there, labels lead to each,
no two share a byte, and they take the visited ranges.  Labels lead to what is still to be visited,
too. -/
structure Completed (data : Bytes) (maxDepth : Nat) (t : Trie) (places : List Place) : Prop where
  data_eq : t.data = data
  maxDepth_eq : t.maxDepth = maxDepth
  sound : ∀ place ∈ places, place.Sound data maxDepth
  reached : ∀ place ∈ places, place.Reached data
  apart : places.Pairwise fun p q => p.range.Apart q.range
  ranges : t.visited.ranges.Perm (places.map Place.range)
  stack : ∀ f ∈ t.stack, f.Reached data

variable {t : Trie} {places : List Place}

theorem completed_trie (data : Bytes) (maxDepth : Nat) :
    (trie data maxDepth).Completed data maxDepth [] where
  data_eq := rfl
  maxDepth_eq := rfl
  sound := List.forall_mem_nil _
  reached := List.forall_mem_nil _
  apart := .nil
  ranges := .nil
  stack f hf := by
    by_cases hdata : data = []
    · subst hdata
      cases hf
    · rw [trie_stack hdata, List.mem_singleton] at hf
      exact hf ▸ .root

/-- A visit completes one more node. -/
theorem Completed.after {stack : List Frame} {visited : Visited t.data.length}
    (h : t.Completed data maxDepth places) (hvisits : t.Visits place stack visited) :
    (t.after place stack visited).Completed data maxDepth (places ++ [place]) := by
  obtain ⟨rfl, rfl, hsound, hreached, hapart, hranges, hstack⟩ := h
  rw [hvisits.stack_eq, List.forall_mem_cons] at hstack
  have hplace := Place.reached_of_frame hstack.1 hvisits.sound
  constructor
  case data_eq => rfl
  case maxDepth_eq => rfl
  case sound => exact List.forall_mem_append.2 ⟨hsound, List.forall_mem_singleton.2 hvisits.sound⟩
  case reached => exact List.forall_mem_append.2 ⟨hreached, List.forall_mem_singleton.2 hplace⟩
  case apart =>
    refine List.pairwise_append.2 ⟨hapart, List.pairwise_singleton _ _, fun p hp => ?_⟩
    refine List.forall_mem_singleton.2 (hvisits.fresh _ ?_)
    exact hranges.symm.subset (List.mem_map_of_mem hp)
  case ranges =>
    show visited.ranges.Perm _
    rw [hvisits.ranges_eq, List.map_append, List.map_singleton]
    exact (Visited.perm_insertSorted _ _).trans
      ((hranges.cons _).trans (List.perm_append_singleton _ _).symm)
  case stack => exact List.forall_mem_append.2 ⟨hplace.children, hstack.2⟩

/-- A draw completes further nodes, and yields the symbol among them. -/
theorem Completed.next (h : t.Completed data maxDepth places) :
    ∃ more, (next t).2.Completed data maxDepth (places ++ more) ∧
      Source.values t = more.filterMap Place.record? ++ Source.values (Trie.next t).2 := by
  induction t using visit_induction generalizing places with
  | done t hstack =>
    rw [next_of_stack_eq_nil hstack]
    exact ⟨[], by rwa [List.append_nil], rfl⟩
  | fail t e hnext =>
    rw [hnext]
    refine ⟨[], ?_, Source.values_of_error hnext⟩
    rw [List.append_nil]
    exact { h with stack := List.forall_mem_nil _ }
  | visit t place stack visited hvisits ih =>
    have hafter := h.after hvisits
    rw [next_of_visits hvisits, values_of_visits hvisits]
    cases hrecord : place.record? with
    | some record =>
      refine ⟨[place], hafter, ?_⟩
      rw [List.filterMap_cons_some hrecord]
      rfl
    | none =>
      obtain ⟨more, hmore, hvalues⟩ := ih hafter
      refine ⟨place :: more, ?_, ?_⟩
      · rwa [List.append_assoc] at hmore
      · rw [List.filterMap_cons_none hrecord]
        exact hvalues

/-- What a walk has completed after some draws holds the symbols drawn so far. -/
theorem Completed.drop (h : t.Completed data maxDepth places) (count : Nat) :
    ∃ more, (Source.drop count t).Completed data maxDepth (places ++ more) ∧
      Source.values t = more.filterMap Place.record? ++ Source.values (Source.drop count t) := by
  induction count generalizing t places with
  | zero => exact ⟨[], by rwa [List.append_nil], rfl⟩
  | succ count ih =>
    obtain ⟨more, hmore, hvalues⟩ := h.next
    obtain ⟨rest, hrest, hvalues'⟩ := ih hmore
    refine ⟨more ++ rest, ?_, ?_⟩
    · rwa [List.append_assoc] at hrest
    · rw [List.filterMap_append, List.append_assoc, Source.drop_succ]
      exact hvalues.trans (congrArg _ hvalues')

/-- A walk is at its end when no symbol comes. -/
theorem stack_next (t : Trie) :
    (∃ record, (Trie.next t).1 = some (.ok record)) ∨ (Trie.next t).2.stack = [] := by
  fun_induction Trie.next t with
  | case1 t hstack => exact .inr hstack
  | case2 => exact .inr rfl
  | case3 => exact .inr rfl
  | case4 => exact .inl ⟨_, rfl⟩
  | case5 =>
    rename_i ih
    exact ih

instance : Source.Fused Trie where
  toList_of_none {t t'} h := by
    have hnext : Trie.next t = (none, t') := h
    have hstack := t.stack_next
    rw [hnext] at hstack
    exact toList_of_stack_eq_nil (hstack.resolve_left fun ⟨_, h⟩ => nomatch h)
  toList_of_error {t t' e} h := by
    have hnext : Trie.next t = (some (.error e), t') := h
    have hstack := t.stack_next
    rw [hnext] at hstack
    exact toList_of_stack_eq_nil (hstack.resolve_left fun ⟨_, h⟩ => nomatch h)

/-! ### How many nodes there can be -/

/-- The nodes take no more bytes than there are. -/
theorem Completed.sum_length_le (h : t.Completed data maxDepth places) :
    (places.map (·.written.length)).sum ≤ data.length := by
  have hcovered := t.visited.covered_le
  rw [Visited.covered, Visited.total_eq_sum, (h.ranges.map ByteRange.size).sum_eq, List.map_map,
    h.data_eq] at hcovered
  exact hcovered

/-- Every node takes two bytes, and two more if a symbol ends there. -/
theorem Completed.two_mul_length_add_le (h : t.Completed data maxDepth places) :
    2 * places.length + 2 * (places.filterMap Place.record?).length ≤ data.length := by
  refine le_trans ?_ h.sum_length_le
  have hsound := h.sound
  clear h
  induction places with
  | nil => exact Nat.zero_le _
  | cons place places ih =>
    rw [List.forall_mem_cons] at hsound
    have hplace := hsound.1.written.two_add_le
    have hplaces := ih hsound.2
    rw [List.map_cons, List.sum_cons, List.length_cons]
    cases hterminal : place.node.terminal with
    | none =>
      rw [hterminal, Option.isSome_none, if_neg Bool.false_ne_true] at hplace
      rw [List.filterMap_cons_none (by rw [Place.record?, hterminal, Option.map_none])]
      omega
    | some terminal =>
      rw [hterminal, Option.isSome_some, if_pos rfl] at hplace
      rw [List.filterMap_cons_some (by rw [Place.record?, hterminal, Option.map_some]),
        List.length_cons]
      omega

/-- Nodes that share no byte start at different positions, and so do the symbols' nodes. -/
theorem Completed.nodup_nodeOffset (h : t.Completed data maxDepth places) :
    ((places.filterMap Place.record?).map Record.nodeOffset).Nodup := by
  rw [List.Nodup, List.pairwise_map, List.pairwise_filterMap]
  refine (h.apart.imp_of_mem ?_)
  intro p q hp hq hapart record hrecord record' hrecord' heq
  obtain ⟨_, -, rfl⟩ := Option.map_eq_some_iff.1 hrecord
  obtain ⟨_, -, rfl⟩ := Option.map_eq_some_iff.1 hrecord'
  refine hapart p.start (ByteRange.mem_iff.2 ⟨le_refl _, ?_⟩) (ByteRange.mem_iff.2 ⟨heq.ge, ?_⟩)
  · exact Nat.lt_add_of_pos_right (h.sound p hp).size_pos
  · exact heq.trans_lt (Nat.lt_add_of_pos_right (h.sound q hq).size_pos)

end Trie

/-- The symbols of any number of draws belong to nodes that the walk has completed. -/
theorem exists_completed (data : Bytes) (maxDepth count : Nat) :
    ∃ places, (Source.drop count (trie data maxDepth)).Completed data maxDepth places ∧
      Source.values (trie data maxDepth) = places.filterMap Place.record? ++
        Source.values (Source.drop count (trie data maxDepth)) := by
  obtain ⟨places, hplaces, hvalues⟩ := (Trie.completed_trie data maxDepth).drop count
  exact ⟨places, hplaces, hvalues⟩

/-- All symbols of a walk belong to nodes that it completes. -/
theorem exists_completed_values (data : Bytes) (maxDepth : Nat) :
    ∃ (t : Trie) (places : List Place), t.Completed data maxDepth places ∧
      Source.values (trie data maxDepth) = places.filterMap Place.record? := by
  obtain ⟨places, hplaces, hvalues⟩ :=
    exists_completed data maxDepth (Source.toList (trie data maxDepth)).length
  refine ⟨_, places, hplaces, ?_⟩
  rw [hvalues, Source.values, Source.toList_drop, List.drop_length, List.filterMap_nil,
    List.append_nil]

/-- **A walk over any bytes ends.**  Symbols come first, then at most one failure, and then nothing
any more.  After any number of draws the walk has completed nodes whose bytes lie in the trie and
apart from each other, at least two for each node.  There is at most one symbol for four bytes, no
two symbols belong to the same node, and labels lead to every one of them. -/
theorem walk_bounded (data : Bytes) (maxDepth : Nat) :
    (∃ failure, Source.Drains (trie data maxDepth) failure) ∧
    (∀ count, ∃ places,
      (Source.drop count (trie data maxDepth)).Completed data maxDepth places ∧
      Source.values (trie data maxDepth) = places.filterMap Place.record? ++
        Source.values (Source.drop count (trie data maxDepth)) ∧
      (∀ place ∈ places, 0 < place.range.size ∧ place.range.stop ≤ data.length) ∧
      places.length ≤ data.length / 2) ∧
    (Source.values (trie data maxDepth)).length ≤ data.length / 4 ∧
    ((Source.values (trie data maxDepth)).map Record.nodeOffset).Nodup ∧
    ∀ record ∈ Source.values (trie data maxDepth),
      record.nodeOffset < data.length ∧ record.Witnessed data maxDepth := by
  obtain ⟨t, places, hcompleted, hvalues⟩ := exists_completed_values data maxDepth
  have hbytes := hcompleted.two_mul_length_add_le
  refine ⟨Source.exists_drains _, fun count => ?_, ?_, ?_, ?_⟩
  · obtain ⟨places, hplaces, hvalues⟩ := exists_completed data maxDepth count
    have hbytes := hplaces.two_mul_length_add_le
    refine ⟨places, hplaces, hvalues, fun place hplace => ?_, ?_⟩
    · have hsound := hplaces.sound place hplace
      exact ⟨hsound.size_pos, hsound.stop_le⟩
    · rw [Nat.le_div_iff_mul_le two_pos]
      omega
  · have hle := List.length_filterMap_le Place.record? places
    rw [hvalues, Nat.le_div_iff_mul_le four_pos]
    omega
  · rw [hvalues]
    exact hcompleted.nodup_nodeOffset
  · intro record hrecord
    rw [hvalues] at hrecord
    obtain ⟨place, hplace, hrecord⟩ := List.mem_filterMap.1 hrecord
    have hsound := hcompleted.sound place hplace
    refine ⟨?_, (hcompleted.reached place hplace).witnessed hsound hrecord⟩
    obtain ⟨terminal, -, rfl⟩ := Option.map_eq_some_iff.1 hrecord
    exact (Nat.lt_add_of_pos_right hsound.size_pos).trans_le hsound.stop_le

end MachO.Export
