import Mathlib.Data.List.Range
import MachO.Proofs.Actions
import MachO.Proofs.Opcode.Eager

/-!
# The slots of rebase opcodes

Every rebase opcode denotes a list of places in the current segment, at which it emits one after the
other.

* `Rebase.Machine`: what one opcode leaves to the next;
* `Rebase.Eager.emit`, `Rebase.Eager.emitAll`: the actions at one place and at a list of places;
* `Rebase.Eager.denote`, `Rebase.Eager.actions`: the outcome of one opcode and of a whole stream;
* `Rebase.Eager.emitAll_range'`: how many places of an arithmetic progression lie in a segment;
* `Rebase.toList_stream_eq_actions`: a rebase stream yields just these actions, one at a time.
-/

namespace MachO.Rebase

variable {space : AddressSpace}

/-- The current place, and how it is written. -/
structure Machine (space : AddressSpace) where
  segment : Option (Fin space.segments.length)
  /-- The place in the segment. -/
  offset : Nat
  kind : Option WriteKind
  deriving DecidableEq, Repr

namespace Machine

/-- The machine before the first opcode. -/
def initial : Machine space := ⟨none, 0, none⟩

/-- The address at which the current segment starts, or zero before a segment is set. -/
def base (m : Machine space) : Nat :=
  match m.segment with
  | some index => space.segments[index].memory.start
  | none => 0

/-- The registers that hold the place. -/
def registers (m : Machine space) : Registers :=
  { Registers.initial with segment := m.segment.map (·.val), offset := m.offset, kind := m.kind }

/-- The state of a stream between two opcodes. -/
def state (m : Machine space) : State := State.of none m.registers

end Machine

namespace Eager

open MachO.Eager (slot slots times interpret)

/-! ### Denotations -/

/-- Makes `offset` the current place, if its address is not beyond the address limit. -/
def moveTo (position offset : Nat) (m : Machine space) : Outcome Action (Machine space) :=
  if offset < UInt64.size ∧ m.base + offset ≤ space.width.span then return { m with offset }
  else .fail (.slotOutOfBounds position)

/-- Emits at the current place. -/
def emit (position : Nat) (m : Machine space) : Outcome Action Unit :=
  match m.segment with
  | none => .fail (.noSegment position)
  | some index =>
    let memory := space.segments[index].memory
    if memory.size ≤ m.offset then .fail (.slotOutOfBounds position)
    else
      match m.kind with
      | none => .fail (.noKind position)
      | some kind => .emit ⟨index, m.offset, memory.start + m.offset, kind, position⟩

/-- Emits at places of the current segment, and moves `step` bytes behind each before the next. -/
def emitAll (position step : Nat) (m : Machine space) (offsets : List Nat) :
    Outcome Action (Machine space) :=
  offsets.foldlM (fun m offset => do
    emit position { m with offset }
    moveTo position (offset + step) m) m

/-- What the opcode at a position does.  Those that emit denote the places from the current one on,
at equal distances. -/
def denote (position : Nat) (op : Op) (m : Machine space) : Outcome Action (Machine space) :=
  let pointer := space.width.pointerSize
  match op with
  | .setKind kind => return { m with kind := some kind }
  | .setSegment index offset =>
    if h : index.toNat < space.segments.length then
      moveTo position offset { m with segment := some ⟨index.toNat, h⟩ }
    else .fail (.badSegmentIndex position index space.segments.length)
  | .advance delta => moveTo position (m.offset + delta) m
  | .advanceScaled count => moveTo position (m.offset + count * pointer) m
  | .emitTimes count => emitAll position pointer m (List.range' m.offset count pointer)
  | .emitThenAdvance delta => emitAll position (delta + pointer) m [m.offset]
  | .emitTimesSkipping count skip =>
    let step := skip + pointer
    if UInt64.size ≤ step then .fail (.slotOutOfBounds position)
    else emitAll position step m (List.range' m.offset count step)

/-- All actions of an opcode stream, and the failure behind them. -/
def actions (bytes : Bytes) (space : AddressSpace) : Outcome Action Unit :=
  interpret opcodes .optional denote (Cursor.of bytes 0) (Machine.initial : Machine space)

/-! ### Opcodes -/

theorem base_registers (m : Machine space) : m.registers.base space = m.base := by
  obtain ⟨segment, offset, kind⟩ := m
  cases segment with
  | none => rfl
  | some index =>
    unfold Registers.base Machine.base Machine.registers
    simp

/-- A move of the registers is one of the machine. -/
theorem ofUpdate_advance (position delta : Nat) (m : Machine space) :
    (Outcome.ofUpdate (Registers.advance space delta position) m.registers :
      Outcome Action Registers) =
      Machine.registers <$> moveTo position (m.offset + delta) m := by
  unfold moveTo
  by_cases h : m.offset + delta < UInt64.size ∧ m.base + (m.offset + delta) ≤ space.width.span
  · have hadvance : Registers.advance space delta position m.registers =
        .ok () (Machine.registers { m with offset := m.offset + delta }) :=
      Registers.advance_eq_ok_iff.2 ⟨h.1, (base_registers m).symm ▸ h.2, rfl⟩
    rw [if_pos h, Outcome.ofUpdate_of_ok hadvance, map_pure]
  · have hadvance : Registers.advance space delta position m.registers =
        .error (.slotOutOfBounds position) m.registers :=
      if_neg ((base_registers m).symm ▸ h)
    rw [if_neg h, Outcome.ofUpdate_of_error hadvance]
    rfl

/-- What follows a move depends on the place after it only. -/
theorem moveTo_bind_congr {β : Type} {position offset : Nat} {m : Machine space}
    {f g : Machine space → Outcome Action β} (h : f { m with offset } = g { m with offset }) :
    moveTo position offset m >>= f = moveTo position offset m >>= g := by
  unfold moveTo
  split
  · rw [pure_bind, pure_bind, h]
  · rfl

/-- The action of the registers is the one at the place of the machine. -/
theorem ofExcept_actionAt (hfits : space.FitsWidth) (position : Nat) (m : Machine space) :
    (Outcome.ofExcept (actionAt space position m.registers) >>= Outcome.emit) =
      emit position m := by
  obtain ⟨segment, offset, kind⟩ := m
  unfold actionAt Registers.target emit Machine.registers
  cases segment with
  | none => rfl
  | some index =>
    have hindex : space.segments[(index : Nat)]? = some space.segments[index] :=
      List.getElem?_eq_getElem index.isLt
    unfold AddressSpace.resolve
    simp only [Option.map_some, hindex]
    by_cases hoffset : space.segments[index].memory.size ≤ offset
    · rw [if_neg (by omega), if_pos hoffset]
      rfl
    · have hlt := hfits.address_lt (List.getElem_mem index.isLt) (Nat.not_le.1 hoffset)
      rw [if_pos ⟨by omega, hlt⟩, if_neg hoffset]
      cases kind <;> rfl

theorem slot_registers (hfits : space.FitsWidth) (position step : Nat) (m : Machine space) :
    slot space (actionAt space position) step position m.registers =
      Machine.registers <$> (do
        emit position m
        moveTo position (m.offset + step) m) := by
  rw [← ofExcept_actionAt hfits, map_bind, ← ofUpdate_advance, bind_assoc]
  rfl

/-- A run of slots is an arithmetic progression of places. -/
theorem slots_registers (hfits : space.FitsWidth) (position step count : Nat)
    (m : Machine space) :
    slots space (actionAt space position) step position count m.registers =
      Machine.registers <$> emitAll position step m (List.range' m.offset count step) := by
  induction count generalizing m with
  | zero => rfl
  | succ count ih =>
    rw [slots, slot_registers hfits, List.range'_succ, emitAll, List.foldlM_cons, bind_map_left,
      map_bind, bind_assoc, bind_assoc]
    exact bind_congr fun _ => moveTo_bind_congr (ih { m with offset := m.offset + step })

/-- Slots behind each other have no bytes between them. -/
theorem denote_emitTimes (position count : Nat) (m : Machine space) :
    denote position (.emitTimes count) m = denote position (.emitTimesSkipping count 0) m := by
  have hpointer : ¬UInt64.size ≤ 0 + space.width.pointerSize := by cases space.width <;> decide
  unfold denote
  dsimp only
  rw [if_neg hpointer, Nat.zero_add]

theorem times_registers (hfits : space.FitsWidth) (position count skip : Nat)
    (m : Machine space) :
    times space (actionAt space) count skip position m.registers =
      Machine.registers <$> denote position (.emitTimesSkipping count skip) m := by
  unfold times denote
  dsimp only
  split
  · rfl
  · exact slots_registers hfits position _ count m

/-- The segment that is set is one of the address space. -/
theorem ofUpdate_setSegment (position : Nat) (index : UInt8) (offset : Nat) (m : Machine space) :
    (Outcome.ofUpdate (Registers.setSegment space index offset position) m.registers :
      Outcome Action Registers) =
      Machine.registers <$> denote position (.setSegment index offset) m := by
  unfold denote
  dsimp only
  by_cases hindex : index.toNat < space.segments.length
  · have hmove := ofUpdate_advance position offset
      { m with segment := some ⟨index.toNat, hindex⟩, offset := 0 }
    rw [Nat.zero_add] at hmove
    rw [dif_pos hindex, Outcome.ofUpdate, Registers.setSegment_of_lt hindex]
    exact hmove
  · rw [dif_neg hindex,
      Outcome.ofUpdate_of_error (Registers.setSegment_of_le (Nat.not_lt.1 hindex) _ _ _)]
    rfl

/-! ### Runs -/

/-- The places of an arithmetic progression that lie in a segment of `size` bytes are the first
ones, in number the distance to the end of the segment in steps, rounded up. -/
def room (size offset step : Nat) : Nat := (size - offset + step - 1) / step

theorem emitAll_cons (position step : Nat) (m : Machine space) (offset : Nat)
    (offsets : List Nat) :
    emitAll position step m (offset :: offsets) = (do
      emit position { m with offset }
      let m ← moveTo position (offset + step) m
      emitAll position step m offsets) := by
  rw [emitAll, List.foldlM_cons, bind_assoc]
  rfl

end Eager

/-! ### Streams -/

theorem resume_of_none (c : Context) (r : Registers) :
    Interpreter.resume c (State.of none r) = .proceed (State.of none r) := rfl

theorem resume_of_run (c : Context) (run : Run) (r : Registers) :
    Interpreter.resume c (State.of (some run) r) =
      run.next c.space State.of (actionAt c.space) r := rfl

theorem complete_emit (hfits : space.FitsWidth) (position delta : Nat) (m : Machine space) :
    Opcode.complete (⟨space⟩ : Context)
        (emitThenAdvance space (State.of none) (actionAt space position) delta position
          m.registers) =
      Machine.state <$> Eager.emitAll position delta m [m.offset] := by
  rw [Opcode.complete_emitThenAdvance, Eager.slot_registers hfits, bind_map_left,
    Eager.emitAll_cons, map_bind, bind_assoc]
  refine bind_congr fun _ => ?_
  rw [map_bind]
  refine bind_congr fun m' => ?_
  rw [resume_of_none, Opcode.complete_proceed]
  rfl

/-- An opcode that is run through agrees with its outcome. -/
theorem outcome_eq_denote (hfits : space.FitsWidth) (position : Nat) (op : Op)
    (m : Machine space) :
    Opcode.outcome (⟨space⟩ : Context) position op m.state =
      Machine.state <$> Eager.denote position op m := by
  have hstate : (Machine.state : Machine space → State) = State.of none ∘ Machine.registers := rfl
  have hupdate {update : Registers.Update Unit} {o : Outcome Action (Machine space)}
      (h : Outcome.ofUpdate update m.registers = Machine.registers <$> o) :
      Opcode.complete (⟨space⟩ : Context) (Effect.ofUpdate (State.of none) update m.registers) =
        Machine.state <$> o := by
    rw [Opcode.complete_ofUpdate, h, hstate, comp_map]
  have hrun (count skip : Nat) :
      Opcode.complete (⟨space⟩ : Context)
          (Run.start space State.of (actionAt space) ⟨count, skip, position⟩ m.registers) =
        Machine.state <$> Eager.denote position (.emitTimesSkipping count skip) m := by
    rw [Opcode.complete_start (resume_of_none _) (resume_of_run _), Eager.times_registers hfits,
      hstate, comp_map]
  show Opcode.complete _ (act space position op m.state) = _
  cases op with
  | setKind kind => exact Opcode.complete_proceed _ _
  | setSegment index offset => exact hupdate (Eager.ofUpdate_setSegment position index offset m)
  | advance delta => exact hupdate (Eager.ofUpdate_advance position delta m)
  | advanceScaled count => exact hupdate (Eager.ofUpdate_advance position _ m)
  | emitTimes count =>
    rw [Eager.denote_emitTimes]
    exact hrun count 0
  | emitThenAdvance delta => exact complete_emit hfits position _ m
  | emitTimesSkipping count skip => exact hrun count skip

/-- What is to come of a whole stream is the outcome of its opcodes. -/
theorem outcome_stream (hfits : space.FitsWidth) (bytes : Bytes) (limit : Option Nat) :
    (stream bytes space limit).outcome = Eager.actions bytes space := by
  rw [Eager.actions, MachO.Eager.interpret_eq_outcome,
    ← Program.outcome_map Machine.state (outcome_eq_denote hfits)]
  exact congrArg (· >>= _) (Opcode.complete_proceed _ _)

/-- The number of slots and the distance between them, of an opcode that emits at many. -/
def Op.run? (width : Width) : Op → Option (Nat × Nat)
  | .emitTimes count => some (count, width.pointerSize)
  | .emitTimesSkipping count skip => some (count, skip + width.pointerSize)
  | _ => none

/-- Three opcodes emit at the four slots of a segment, and the last of them asks for more. -/
example :
    let bytes : Bytes := [0x11, 0x20, 0, 0x51, 0x80, 2, 0, 0x60, 5]
    let items : List (Except DecodeError Action) := [
      .ok ⟨0, 0, 0x1000, .pointer, 3⟩, .ok ⟨0, 8, 0x1008, .pointer, 4⟩,
      .ok ⟨0, 16, 0x1010, .pointer, 4⟩, .ok ⟨0, 24, 0x1018, .pointer, 7⟩,
      .error (.slotOutOfBounds 7)]
    Source.toList (stream bytes exampleSpace none) = items ∧
      (Eager.actions bytes exampleSpace).items = items := by
  decide +kernel

end MachO.Rebase
