import MachO.Export.Record

/-!
# Nodes of the export trie

A node is the size of its terminal information and that information, the number of its children, and
for each child the bytes that continue the name and the place of the child in the trie.

* `Export.Node`, `Export.Edge`;
* `Export.Node.reader`: reads a node that a name leads to;
* `Export.Node.read`: a node and the position behind it, with `Export.Node.read_eq_ok`: the node
  takes at least two bytes, all of them in the trie.
-/

namespace MachO.Export

/-- The way from a node to a child. -/
structure Edge where
  label : Bytes
  child : Nat
  deriving DecidableEq, Repr

/-- A node of the trie. -/
structure Node where
  terminal : Option Terminal
  edges : List Edge
  deriving DecidableEq, Repr

/-- Reads the way to a child. -/
def Edge.reader : ReadM Edge := do
  return { label := ← ReadM.terminated, child := ← ReadM.uleb }

/-- Reads the terminal information of `size` bytes in the node at `start`, to which `name` leads.
No symbol may have an empty name. -/
def Terminal.inNode (start size : Nat) (name : Bytes) : ReadM (Option Terminal) :=
  if size = 0 then return none
  else do
    let position ← ReadM.position
    let remaining ← ReadM.remaining
    ReadM.require (size ≤ remaining) (.badTerminal position .pastTrie)
    ReadM.require (name ≠ []) (.unnamedExport start)
    return some (← ReadM.window size (Terminal.reader position))

/-- Reads a node, to which `name` leads. -/
def Node.reader (name : Bytes) : ReadM Node := do
  let start ← ReadM.position
  let size ← ReadM.uleb
  let terminal ← Terminal.inNode start size name
  let count ← ReadM.u8
  let edges ← ReadM.times Edge.reader count.toNat
  return { terminal, edges }

theorem Edge.moves_reader : Edge.reader.Moves 1 :=
  ReadM.moves_terminated.bind fun _ =>
    (ReadM.moves_uleb.mono (by omega)).bind_of_right fun _ => ReadM.Moves.pure _

theorem Terminal.moves_inNode (start size : Nat) (name : Bytes) :
    (Terminal.inNode start size name).Moves 0 := by
  intro c a c' h
  unfold Terminal.inNode at h
  split at h
  · exact ReadM.Moves.pure _ h
  · obtain ⟨position, _, hposition, h⟩ := ReadM.bind_eq_ok_iff.1 h
    cases hposition
    obtain ⟨remaining, _, hremaining, h⟩ := ReadM.bind_eq_ok_iff.1 h
    cases hremaining
    obtain ⟨_, c₁, hr₁, h⟩ := ReadM.bind_eq_ok_iff.1 h
    obtain ⟨hsize, rfl⟩ := ReadM.require_eq_ok_iff.1 hr₁
    obtain ⟨_, c₁, hr₂, h⟩ := ReadM.bind_eq_ok_iff.1 h
    obtain ⟨-, rfl⟩ := ReadM.require_eq_ok_iff.1 hr₂
    obtain ⟨terminal, c₁, hwindow, h⟩ := ReadM.bind_eq_ok_iff.1 h
    cases h
    obtain ⟨n, -, hle, rfl⟩ := ReadM.Moves.window hsize hwindow
    exact ⟨n, Nat.zero_le _, hle, rfl⟩

theorem Node.moves_reader (name : Bytes) : (Node.reader name).Moves 2 :=
  ReadM.moves_position.bind_of_right fun start =>
    ReadM.moves_uleb.bind fun size =>
      (Terminal.moves_inNode start size name).bind_of_right fun _ =>
        ReadM.moves_u8.bind fun count =>
          ((Edge.moves_reader.mono (by omega)).times count.toNat).bind_of_right fun _ =>
            ReadM.Moves.pure _

/-- The node at a position of a trie, to which `name` leads, and the position behind it. -/
def Node.read (data : Bytes) (start : Nat) (name : Bytes) : Except DecodeError (Node × Nat) :=
  match Node.reader name (Cursor.of data start) with
  | .ok node c => .ok (node, c.pos)
  | .error e _ => .error e

theorem Node.read_eq_ok {data name : Bytes} {start stop : Nat} {node : Node}
    (h : Node.read data start name = .ok (node, stop)) :
    start + 2 ≤ stop ∧ stop ≤ data.length := by
  unfold Node.read at h
  split at h
  · rename_i node' c hread
    cases h
    obtain ⟨n, hn, hle, rfl⟩ := Node.moves_reader name hread
    simp only [Cursor.of, List.length_drop] at hle
    simp only [Cursor.skip, Cursor.of]
    omega
  · cases h

end MachO.Export
