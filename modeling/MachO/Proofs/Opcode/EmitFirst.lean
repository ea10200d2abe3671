import MachO.Proofs.AddressSpace.Resolve
import MachO.Proofs.Opcode.Truncation
import MachO.Opcode.Emit

/-!
# Emitting before moving

An opcode that emits does so at the current place, and the failure of the move behind the action is
told by the next draw.

* `Registers.AtSlot`: the place is inside of its segment;
* `Run.start_of_fits`, `Run.start_of_empty`, `Run.start_of_not_fits`: how an opcode that emits many
  actions begins;
* `OpcodeStream.Comes`: the next draw begins an opcode, without an action in front of it;
* `OpcodeStream.EmitsFirst`: it emits, and then moves;
* `OpcodeStream.emitsFirst_of_act`: this is so for opcodes that emit and then move.
-/

namespace MachO

/-! ### Places -/

namespace Registers

variable {space : AddressSpace} {r : Registers} {segment address : Nat}

/-- A segment is set, and the place lies in it and has an address. -/
def AtSlot (space : AddressSpace) (r : Registers) (segment address : Nat) : Prop :=
  r.segment = some segment ∧ ∃ s, space.segments[segment]? = some s ∧ r.offset < s.memory.size ∧
    address = s.memory.start + r.offset

theorem AtSlot.target_eq (hfits : space.FitsWidth) (h : r.AtSlot space segment address)
    (position : Nat) : r.target space position = .ok (segment, address) := by
  obtain ⟨hsegment, s, hs, hoffset, rfl⟩ := h
  have hspan := hfits.address_lt (List.mem_of_getElem? hs) hoffset
  exact target_eq_ok_iff.2
    ⟨hsegment, AddressSpace.resolve_eq_ok_iff.2 ⟨s, hs, hoffset, hspan, rfl⟩⟩

end Registers

/-! ### Runs -/

namespace Run

variable {State Action : Type} {space : AddressSpace} {wrap : Option Run → Registers → State}
  {action : (position : Nat) → Registers → Except DecodeError Action} {run : Run} {r : Registers}

theorem start_of_fits (hremaining : run.remaining ≠ 0) (hfits : run.stride space < UInt64.size) :
    run.start space wrap action r =
      emitThenAdvance space (wrap run.tail?) (action run.position) (run.stride space) run.position
        r := by
  unfold start
  rw [if_neg (Nat.not_le.2 hfits), if_neg hremaining]
  rfl

theorem start_of_empty (hremaining : run.remaining = 0) (hfits : run.stride space < UInt64.size) :
    run.start space wrap action r = .proceed (wrap none r) := by
  unfold start
  rw [if_neg (Nat.not_le.2 hfits), if_pos hremaining]

theorem start_of_not_fits (hfits : ¬run.stride space < UInt64.size) :
    run.start space wrap action r = .fail (.slotOutOfBounds run.position) (wrap none r) :=
  if_pos (Nat.not_lt.1 hfits)

end Run

/-! ### Draws -/

variable {Context Op State Action : Type} [Interpreter Context Op State Action]

namespace OpcodeStream

/-- The next draw comes to the opcode at a position in a state, behind opcodes that emit nothing and
do not fail.  Nothing else is suspended then, no failure was found before, and the limit leaves room
for an action. -/
structure Comes (st : OpcodeStream Context Op State) (position : Nat) (op : Op)
    (rest : List (Nat × Op)) (s : State) : Prop where
  running : st.ended = false
  late : st.late = none
  room : st.exhausted = none
  reaches : ∃ front, st.code = front ++ (position, op) :: rest ∧
    Opcode.execute st.context front (Interpreter.resume st.context st.state) = ([], .proceed s)

variable {st : OpcodeStream Context Op State} {position : Nat} {op : Op} {rest : List (Nat × Op)}
  {s : State}

theorem Comes.execute_eq (h : st.Comes position op rest s) :
    Opcode.execute st.context st.code (Interpreter.resume st.context st.state) =
      Opcode.execute st.context rest (Interpreter.act st.context position op s) := by
  obtain ⟨front, hcode, hfront⟩ := h.reaches
  rw [hcode, Opcode.execute_append, hfront]
  rfl

/-- An action of the opcode is what the draw yields. -/
theorem Comes.next_of_emit (h : st.Comes position op rest s) {a : Action}
    {late : Option DecodeError} {s' : State}
    (hact : Interpreter.act st.context position op s = .emit a late s') :
    Source.next st =
      (some (.ok a), { st with code := rest, state := s', late, emitted := st.emitted + 1 }) := by
  refine next_eq_ok_iff.2 ⟨h.running, h.late, h.room, rest, late, s', ?_, rfl⟩
  rw [h.execute_eq, hact, Opcode.execute_emit]

/-- A failure of the opcode is what the draw yields. -/
theorem Comes.next_of_fail (h : st.Comes position op rest s) {e : DecodeError} {s' : State}
    (hact : Interpreter.act st.context position op s = .fail e s') :
    Source.next st = (some (.error e), { st with code := rest, state := s', ended := true }) := by
  rw [next_of_running h.running h.late h.room, h.execute_eq, hact]
  cases rest <;> rfl

/-- The next draw yields an action, whatever the distance of the move behind it.  A move that leaves
the address width changes nothing, and is told by the draw behind the action. -/
def EmitsFirst (st : OpcodeStream Context Op State) (space : AddressSpace)
    (registers : State → Registers) (position distance : Nat) (r : Registers) (a : Action) : Prop :=
  ∃ st', Source.next st = (some (.ok a), st') ∧
    (r.CanAdvance space distance →
      st'.late = none ∧ registers st'.state = { r with offset := r.offset + distance }) ∧
    (¬r.CanAdvance space distance →
      registers st'.state = r ∧
        ∃ st'', Source.next st' = (some (.error (.slotOutOfBounds position)), st''))

variable {space : AddressSpace} {registers : State → Registers} {wrap : Registers → State}
  {action : Registers → Except DecodeError Action} {distance : Nat} {r : Registers} {a : Action}

/-- **An opcode that emits and then moves does it in this order.** -/
theorem emitsFirst_of_act (h : st.Comes position op rest s)
    (hact : Interpreter.act st.context position op s =
      emitThenAdvance space wrap action distance position r)
    (haction : action r = .ok a) (hwrap : ∀ r, registers (wrap r) = r) :
    st.EmitsFirst space registers position distance r a := by
  unfold emitThenAdvance at hact
  rw [haction] at hact
  by_cases hmove : r.CanAdvance space distance
  · rw [Registers.advance_of_canAdvance hmove] at hact
    exact ⟨_, h.next_of_emit hact, fun _ => ⟨rfl, hwrap _⟩, fun hnot => absurd hmove hnot⟩
  · rw [Registers.advance_of_not_canAdvance hmove] at hact
    exact ⟨_, h.next_of_emit hact, fun hcan => absurd hcan hmove,
      fun _ => ⟨hwrap r, _, next_of_late h.running rfl⟩⟩

end OpcodeStream

end MachO
