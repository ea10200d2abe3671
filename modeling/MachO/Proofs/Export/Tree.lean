import MachO.Export.Trie
import MachO.Proofs.ByteRange
import MachO.Proofs.Export.Written

/-!
# Trees that are laid out in a byte string

* `Export.Tree`: nodes, each with its position, its bytes and the labels of its children;
* `Export.Place`: a node with the name that leads to it;
* `Export.Tree.places`, `Export.Tree.records`: the nodes and the symbols of a tree in pre-order;
* `Export.Tree.LaidOut`: the nodes of a tree stand in a byte string, apart from each other;
* `Export.Branch`: a tree behind a name.
-/

namespace MachO.Export

/-- A tree of nodes, of which each starts at a position, is written in some bytes, and leads to each
of its children with a label. -/
structure Tree where
  start : Nat
  written : Bytes
  terminal : Option Terminal
  children : List (Bytes × Tree)

/-- The node at the root. -/
def Tree.node (tree : Tree) : Node where
  terminal := tree.terminal
  edges := tree.children.map fun (label, child) => ⟨label, child.start⟩

/-- A node with its position and its bytes, behind the labels from the root. -/
structure Place where
  start : Nat
  name : Bytes
  /-- The number of edges from the root. -/
  depth : Nat
  node : Node
  written : Bytes
  deriving DecidableEq, Repr

mutual

/-- The nodes of a tree behind a name, in pre-order. -/
def Tree.places (name : Bytes) (depth : Nat) : Tree → List Place
  | ⟨start, written, terminal, children⟩ =>
    ⟨start, name, depth, Tree.node ⟨start, written, terminal, children⟩, written⟩ ::
      Tree.placesBelow name (depth + 1) children

/-- The nodes of the children of a node behind a name. -/
def Tree.placesBelow (name : Bytes) (depth : Nat) : List (Bytes × Tree) → List Place
  | [] => []
  | (label, child) :: rest =>
    child.places (name ++ label) depth ++ Tree.placesBelow name depth rest

end

namespace Place

/-- The positions of the node. -/
def range (place : Place) : ByteRange := ⟨place.start, place.written.length⟩

/-- The symbol that ends at the node. -/
def record? (place : Place) : Option Record :=
  place.node.terminal.map fun terminal =>
    { name := Text.Utf8.decodeLossy place.name
      flags := terminal.flags
      target := terminal.target
      nodeOffset := place.start }

/-- The node stands in a byte string, not too deep, and only with a name if a symbol ends there. -/
structure Sound (data : Bytes) (maxDepth : Nat) (place : Place) : Prop where
  slice : data.slice? place.start place.written.length = some place.written
  written : place.node.Written place.written
  depth_le : place.depth ≤ maxDepth
  named : place.node.terminal.isSome → place.name ≠ []

/-- The frame of the node. -/
def frame (place : Place) : Frame := ⟨place.start, place.name, place.depth⟩

theorem frame_record? (place : Place) : place.frame.record? place.node = place.record? := rfl

theorem Sound.size_pos {data : Bytes} {maxDepth : Nat} {place : Place}
    (h : place.Sound data maxDepth) : 0 < place.range.size := h.written.length_pos

theorem Sound.stop_le {data : Bytes} {maxDepth : Nat} {place : Place}
    (h : place.Sound data maxDepth) : place.range.stop ≤ data.length :=
  (Bytes.slice?_eq_some_iff.1 h.slice).1

end Place

/-- The symbols of a tree, in pre-order. -/
def Tree.records (tree : Tree) : List Record := (tree.places [] 0).filterMap Place.record?

/-- The root of the tree is the first node of a byte string, all nodes of the tree stand there, and
no two share a byte. -/
structure Tree.LaidOut (data : Bytes) (maxDepth : Nat) (tree : Tree) : Prop where
  start_eq : tree.start = 0
  sound : ∀ place ∈ tree.places [] 0, place.Sound data maxDepth
  apart : (tree.places [] 0).Pairwise fun p q => p.range.Apart q.range

/-! ### Trees behind names -/

/-- A tree behind a name. -/
structure Branch where
  name : Bytes
  depth : Nat
  tree : Tree

namespace Branch

/-- The node at the root. -/
def place (b : Branch) : Place := ⟨b.tree.start, b.name, b.depth, b.tree.node, b.tree.written⟩

/-- All nodes, in pre-order. -/
def places (b : Branch) : List Place := b.tree.places b.name b.depth

/-- The trees of the children of the root. -/
def below (b : Branch) : List Branch :=
  b.tree.children.map fun (label, child) => ⟨b.name ++ label, b.depth + 1, child⟩

theorem placesBelow_eq (name : Bytes) (depth : Nat) (children : List (Bytes × Tree)) :
    Tree.placesBelow name depth children =
      (children.map fun (label, child) => (⟨name ++ label, depth, child⟩ : Branch)).flatMap
        places := by
  induction children with
  | nil => rfl
  | cons child children ih =>
    rw [Tree.placesBelow, ih]
    rfl

theorem places_eq (b : Branch) : b.places = b.place :: b.below.flatMap places := by
  obtain ⟨name, depth, ⟨start, written, terminal, children⟩⟩ := b
  rw [places, Tree.places, placesBelow_eq]
  rfl

theorem map_frame_below (b : Branch) :
    b.below.map (·.place.frame) = b.place.frame.children b.place.node := by
  unfold below Frame.children
  rw [show b.place.node.edges = b.tree.children.map _ from rfl, List.map_map, List.map_map]
  rfl

/-- Trees behind the frames of some edges are the trees of children with these edges. -/
theorem exists_children {name : Bytes} {depth : Nat} {edges : List Edge} {branches : List Branch}
    (h : branches.map (·.place.frame) =
      edges.map fun edge => ⟨edge.child, name ++ edge.label, depth⟩) :
    ∃ children : List (Bytes × Tree),
      (children.map fun (label, child) => (⟨label, child.start⟩ : Edge)) = edges ∧
      (children.map fun (label, child) => (⟨name ++ label, depth, child⟩ : Branch)) =
        branches := by
  induction edges generalizing branches with
  | nil =>
    rw [List.map_nil, List.map_eq_nil_iff] at h
    exact ⟨[], rfl, h.symm⟩
  | cons edge edges ih =>
    rw [List.map_cons, List.map_eq_cons_iff] at h
    obtain ⟨⟨name', depth', child⟩, branches, rfl, hframe, hbranches⟩ := h
    obtain ⟨children, rfl, rfl⟩ := ih hbranches
    obtain ⟨label, start⟩ := edge
    obtain ⟨hstart, hname, hdepth⟩ := Frame.mk.inj hframe
    rw [← show child.start = start from hstart, show name' = name ++ label from hname,
      show depth' = depth from hdepth]
    exact ⟨(label, child) :: children, rfl, rfl⟩

/-- Trees behind the frames of a node's children make a tree with that node at the root. -/
theorem exists_of_below {place : Place} {branches : List Branch}
    (h : branches.map (·.place.frame) = place.frame.children place.node) :
    ∃ b : Branch, b.place = place ∧ b.below = branches := by
  obtain ⟨start, name, depth, ⟨terminal, edges⟩, written⟩ := place
  obtain ⟨children, hedges, hbelow⟩ := exists_children h
  refine ⟨⟨name, depth, ⟨start, written, terminal, children⟩⟩, ?_, hbelow⟩
  rw [← show _ = edges from hedges]
  rfl

end Branch

end MachO.Export
