import MachO.Export.Node
import MachO.Export.Visited
import MachO.Stream.Source

/-!
# Walking the export trie

The exported symbols of an image are the names that lead from the root of its export trie to the
nodes with terminal information.  The trie is walked in pre-order, and a walk ends at the first node
that is malformed.

* `Export.Frame`: a node that is still to be visited;
* `Export.Trie`: a walk under way, as a source of exported symbols;
* `Export.Trie.visit`: reads the node of a frame;
* `Export.trie`: the walk over the bytes of a trie.
-/

namespace MachO.Export

/-- A node that is still to be visited. -/
structure Frame where
  offset : Nat
  /-- The bytes of the name that leads to the node. -/
  name : Bytes
  /-- The number of edges from the root. -/
  depth : Nat
  deriving DecidableEq, Repr

/-- The frames of the children of a node. -/
def Frame.children (f : Frame) (node : Node) : List Frame :=
  node.edges.map fun edge => ⟨edge.child, f.name ++ edge.label, f.depth + 1⟩

/-- The exported symbol that ends at the node of a frame. -/
def Frame.record? (f : Frame) (node : Node) : Option Record :=
  node.terminal.map fun terminal =>
    ⟨Text.Utf8.decodeLossy f.name, terminal.flags, terminal.target, f.offset⟩

/-- A walk under way. -/
structure Trie where
  data : Bytes
  /-- The largest number of edges from the root. -/
  maxDepth : Nat
  /-- The nodes that are still to be visited, the next one first. -/
  stack : List Frame
  visited : Visited data.length

namespace Trie

/-- Reads the node of a frame, and returns it with the position behind it. -/
def visit (t : Trie) (f : Frame) : Except DecodeError (Node × Nat) :=
  if t.data.length ≤ f.offset ∨ t.visited.overlaps ⟨f.offset, 1⟩ then
    .error (.nodeOverlap f.offset)
  else if t.maxDepth < f.depth then .error (.trieTooDeep f.offset t.maxDepth)
  else Node.read t.data f.offset f.name

theorem visit_eq_ok {t : Trie} {f : Frame} {node : Node} {stop : Nat}
    (h : t.visit f = .ok (node, stop)) : f.offset + 2 ≤ stop ∧ stop ≤ t.data.length := by
  unfold visit at h
  split at h
  · cases h
  · split at h
    · cases h
    · exact Node.read_eq_ok h

/-- The next exported symbol, or the failure of the next node. -/
def next (t : Trie) : Option (Except DecodeError Record) × Trie :=
  match _hstack : t.stack with
  | [] => (none, t)
  | f :: stack =>
    match hvisit : t.visit f with
    | .error e => (some (.error e), { t with stack := [] })
    | .ok (node, stop) =>
      have hbounds := visit_eq_ok hvisit
      let range : ByteRange := ⟨f.offset, stop - f.offset⟩
      have hpos : 0 < range.size := by
        show 0 < stop - f.offset
        omega
      have hstop : range.stop ≤ t.data.length := by
        show f.offset + (stop - f.offset) ≤ _
        omega
      match hinsert : t.visited.insert? range hpos hstop with
      | none => (some (.error (.nodeOverlap f.offset)), { t with stack := [] })
      | some visited =>
        have := Visited.uncovered_lt_of_insert? hinsert
        let t' := { t with stack := f.children node ++ stack, visited }
        match f.record? node with
        | some record => (some (.ok record), t')
        | none => next t'
termination_by t.data.length - t.visited.covered

/-- More than the number of items still to come. -/
def rank (t : Trie) : Nat :=
  if t.stack.isEmpty then 0 else t.data.length - t.visited.covered + 1

theorem rank_le (t : Trie) : rank t ≤ t.data.length - t.visited.covered + 1 := by
  unfold rank
  split <;> omega

theorem rank_next_lt (t : Trie) (h : (next t).1.isSome) : rank (next t).2 < rank t := by
  fun_induction next t with
  | case1 => simp at h
  | case2 t f stack hstack => simp [rank, hstack]
  | case3 t f stack hstack => simp [rank, hstack]
  | case4 t f stack hstack _ _ _ _ _ _ _ visited _ hlt t' =>
    have : rank t' ≤ t.data.length - visited.covered + 1 := rank_le t'
    have ht : rank t = t.data.length - t.visited.covered + 1 := by simp [rank, hstack]
    show rank t' < rank t
    omega
  | case5 t f stack hstack _ _ _ _ _ _ _ visited _ hlt t' _ ih =>
    have : rank t' ≤ t.data.length - visited.covered + 1 := rank_le t'
    have ht : rank t = t.data.length - t.visited.covered + 1 := by simp [rank, hstack]
    have := ih h
    omega

instance : Source Trie Record where
  next := next
  rank := rank
  rank_next_lt := rank_next_lt

end Trie

/-- The walk over the bytes of a trie.  No bytes are a trie without symbols. -/
def trie (data : Bytes) (maxDepth : Nat) : Trie where
  data
  maxDepth
  stack := if data.isEmpty then [] else [⟨0, [], 0⟩]
  visited := Visited.empty data.length

end MachO.Export
