import MachO.Bind.Stream
import MachO.Proofs.Actions
import MachO.Proofs.Opcode.Eager

/-!
# Running bind opcodes eagerly

* `Bind.Machine`: what one bind opcode leaves to the next.  No opcode is ever suspended;
* `Bind.Eager.chain`: a whole chain of slots;
* `Bind.Eager.denote`: the outcome of each opcode;
* `Bind.Eager.actions`: a whole opcode stream, read from its bytes;
* `Bind.toList_stream_eq_items`: a bind stream yields just that, one item at a time.
-/

namespace MachO.Bind

/-- The registers, and the table of symbols if one was begun. -/
structure Machine where
  registers : Registers
  table : Option (Array Entry)
  deriving DecidableEq, Repr

/-- The state of a stream between two opcodes. -/
def Machine.state (m : Machine) : State := ⟨m.registers, m.table, .nothing⟩

namespace Eager

open MachO.Eager (slot times interpret)

/-- Emits the action that the current slot of a chain stands for, if it binds. -/
def bindSlot (entries : Array Entry) (position segment address : Nat) (slot : Slot)
    (r : Registers) : Outcome Action Unit :=
  if slot.binds then
    match entries[slot.index]? with
    | none => .fail (.badTableIndex position slot.index entries.size)
    | some entry =>
      .emit {
        segment, offset := r.offset, address, symbol := entry.symbol, ordinal := entry.ordinal
        kind := slot.kind, addend := entry.addend, flags := entry.flags, position }
  else pure ()

/-- Follows a chain from the current slot to its last one. -/
def chain (space : AddressSpace) (image : Bytes) (e : Endian) (entries : Array Entry)
    (position : Nat) (r : Registers) : Outcome Action Registers :=
  match slotAt space image e position r with
  | .error error => .fail error
  | .ok (segment, address, slot) => do
    bindSlot entries position segment address slot r
    if hlast : slot.distance = 0 then return r
    else
      match h : Registers.advance space (slot.distance * 8) position r with
      | .ok _ r' =>
        have := Registers.span_sub_offset_lt h (Nat.mul_pos (Nat.pos_of_ne_zero hlast) (by decide))
        chain space image e entries position r'
      | .error error _ => .fail error
termination_by space.width.span - r.offset

/-- A chain goes on behind its current slot unless that is the last one. -/
theorem chain_of_slotAt {space : AddressSpace} {image : Bytes} {e : Endian} {position : Nat}
    {r : Registers} {segment address : Nat} {slot : Slot}
    (h : slotAt space image e position r = .ok (segment, address, slot))
    (entries : Array Entry) :
    chain space image e entries position r = (do
      bindSlot entries position segment address slot r
      if slot.distance = 0 then return r
      else
        let r ← .ofUpdate (Registers.advance space (slot.distance * 8) position) r
        chain space image e entries position r) := by
  rw [chain, h]
  refine bind_congr fun _ => ?_
  by_cases hlast : slot.distance = 0
  · rw [dif_pos hlast, if_pos hlast]
  · rw [dif_neg hlast, if_neg hlast]
    split <;> rename_i hadvance
    · rw [Outcome.ofUpdate_of_ok hadvance, pure_bind]
    · rw [Outcome.ofUpdate_of_error hadvance, Outcome.fail_bind]

theorem chain_of_error {space : AddressSpace} {image : Bytes} {e : Endian} {position : Nat}
    {r : Registers} {error : DecodeError} (h : slotAt space image e position r = .error error)
    (entries : Array Entry) :
    chain space image e entries position r = .fail error := by
  rw [chain, h]

/-- What the opcode at a position does, from its beginning to its end. -/
def denote (c : Context) (position : Nat) (op : Op) (m : Machine) : Outcome Action Machine :=
  let r := m.registers
  let set := fun r => ({ m with registers := r } : Machine)
  let pointer := c.space.width.pointerSize
  let emit := fun delta => set <$> slot c.space (actionAt c.space position) delta position r
  match op with
  | .setOrdinal ordinal => return set { r with ordinal := some ordinal }
  | .setSymbol symbol flags => return set { r with symbol := some symbol, symbolFlags := flags }
  | .setKind kind => return set { r with kind := some kind }
  | .setAddend addend => return set { r with addend }
  | .setSegment index offset =>
    set <$> .ofUpdate (Registers.setSegment c.space index offset position) r
  | .advance delta => set <$> .ofUpdate (Registers.advance c.space delta position) r
  | .emit =>
    match m.table with
    | none => emit pointer
    | some table => do
      let entry ← .ofExcept (entryAt position r)
      return { m with table := some (table.push entry) }
  | .emitThenAdvance delta => emit (delta + pointer)
  | .emitThenAdvanceScaled count => emit (count * pointer + pointer)
  | .emitTimesSkipping count skip =>
    set <$> times c.space (actionAt c.space) count skip position r
  | .startTable _ => return { m with table := some #[] }
  | .followChain =>
    match c.image with
    | none => .fail (.slotOutOfBounds position)
    | some (image, e) => set <$> chain c.space image e (m.table.getD #[]) position r

/-- All actions of an opcode stream, and the failure behind them. -/
def actions (kind : StreamKind) (bytes : Bytes) (c : Context) : Outcome Action Unit :=
  interpret opcodes kind.doneRule (denote c) (Cursor.of bytes 0) ⟨kind.registers, none⟩

end Eager

/-! ### Suspended opcodes -/

theorem resume_of_none (c : Context) (s : State) (r : Registers) :
    Interpreter.resume c (s.of none r) = .proceed (s.of none r) := rfl

theorem resume_of_run (c : Context) (s : State) (run : Run) (r : Registers) :
    Interpreter.resume c (s.of (some run) r) = run.next c.space s.of (actionAt c.space) r := rfl

theorem complete_emit (c : Context) (s : State)
    (action : Registers → Except DecodeError Action) (delta position : Nat) (r : Registers) :
    Opcode.complete c (emitThenAdvance c.space (s.of none) action delta position r) =
      s.of none <$> MachO.Eager.slot c.space action delta position r := by
  rw [Opcode.complete_emitThenAdvance, map_eq_pure_bind]
  refine bind_congr fun r' => ?_
  rw [resume_of_none, Opcode.complete_proceed]

theorem Slot.isLast_iff (slot : Slot) : slot.distance * 8 = 0 ↔ slot.distance = 0 := by omega

/-- A chain that is suspended at each action is the whole chain. -/
theorem complete_follow (c : Context) {image : Bytes} {e : Endian} (hc : c.image = some (image, e))
    (position : Nat) (s : State) :
    Opcode.complete c (follow c.space image e position s) =
      s.of none <$> Eager.chain c.space image e s.entries position s.registers := by
  fun_cases follow c.space image e position s with
  | case1 error hslot =>
    rw [Eager.chain_of_error hslot]
    exact Opcode.complete_fail c error s
  | case2 segment address slot hslot hbinds hentry =>
    rw [Eager.chain_of_slotAt hslot, Eager.bindSlot, if_pos hbinds, hentry]
    exact Opcode.complete_fail c _ s
  | case3 segment address slot hslot ended delta hbinds entry hentry action hlast =>
    have hlast : slot.distance = 0 := slot.isLast_iff.1 hlast
    rw [Eager.chain_of_slotAt hslot, Eager.bindSlot, if_pos hbinds, hentry, if_pos hlast,
      Opcode.complete_emit]
    exact congrArg (Outcome.emit action >>= fun _ => ·) (Opcode.complete_proceed c _)
  | case4 segment address slot hslot delta hbinds entry hentry action hdelta _ r hadvance =>
    -- The chain is suspended behind the action, and what resumes it is the chain from there on.
    have hnext : slot.distance ≠ 0 := mt slot.isLast_iff.2 hdelta
    have := Registers.span_sub_offset_lt hadvance (Nat.pos_of_ne_zero hdelta)
    rw [Eager.chain_of_slotAt hslot, Eager.bindSlot, if_pos hbinds, hentry, if_neg hnext,
      Opcode.complete_emit, Outcome.ofUpdate_of_ok hadvance, pure_bind]
    let s' : State := ⟨r, s.table, .chain position⟩
    have hresume : Interpreter.resume c s' = follow c.space image e position s' := by
      show c.follow position s' = _
      unfold Context.follow
      rw [hc]
    rw [hresume, complete_follow c hc position s', map_bind]
    rfl
  | case5 segment address slot hslot ended delta hbinds entry hentry action hdelta error r
      hadvance =>
    have hnext : slot.distance ≠ 0 := mt slot.isLast_iff.2 hdelta
    rw [Eager.chain_of_slotAt hslot, Eager.bindSlot, if_pos hbinds, hentry, if_neg hnext,
      Opcode.complete_emit_late, Outcome.ofUpdate_of_error hadvance, Outcome.fail_bind]
    rfl
  | case6 segment address slot hslot ended delta hbinds hlast =>
    have hlast : slot.distance = 0 := slot.isLast_iff.1 hlast
    rw [Eager.chain_of_slotAt hslot, Eager.bindSlot, if_neg hbinds, if_pos hlast]
    exact Opcode.complete_proceed c _
  | case7 segment address slot hslot delta hbinds hdelta _ r hadvance =>
    -- A slot that does not bind emits nothing, so the chain is not suspended there.
    have hnext : slot.distance ≠ 0 := mt slot.isLast_iff.2 hdelta
    have := Registers.span_sub_offset_lt hadvance (Nat.pos_of_ne_zero hdelta)
    rw [Eager.chain_of_slotAt hslot, Eager.bindSlot, if_neg hbinds, if_neg hnext, pure_bind,
      Outcome.ofUpdate_of_ok hadvance, pure_bind]
    exact complete_follow c hc position _
  | case8 segment address slot hslot ended delta hbinds hdelta error r hadvance =>
    have hnext : slot.distance ≠ 0 := mt slot.isLast_iff.2 hdelta
    rw [Eager.chain_of_slotAt hslot, Eager.bindSlot, if_neg hbinds, if_neg hnext, pure_bind,
      Outcome.ofUpdate_of_error hadvance, Outcome.fail_bind]
    exact Opcode.complete_fail c error _
termination_by c.space.width.span - s.registers.offset

/-- An opcode that is run through agrees with its outcome. -/
theorem outcome_eq_denote (c : Context) (position : Nat) (op : Op) (m : Machine) :
    Opcode.outcome c position op m.state = Machine.state <$> Eager.denote c position op m := by
  obtain ⟨r, table⟩ := m
  have hset : State.of ⟨r, table, .nothing⟩ none = Machine.state ∘ fun r => ⟨r, table⟩ := rfl
  -- Three opcodes emit one action, and differ only in how far they move.
  have emit : ∀ delta,
      Opcode.complete c (emitThenAdvance c.space (State.of ⟨r, table, .nothing⟩ none)
        (actionAt c.space position) delta position r) =
      Machine.state <$> (fun r => ⟨r, table⟩) <$>
        MachO.Eager.slot c.space (actionAt c.space position) delta position r := by
    intro delta
    rw [complete_emit, hset, comp_map]
  show Opcode.complete c (act c position op ⟨r, table, .nothing⟩) = _
  cases op with
  | setOrdinal ordinal => exact Opcode.complete_proceed c _
  | setSymbol symbol flags => exact Opcode.complete_proceed c _
  | setKind kind => exact Opcode.complete_proceed c _
  | setAddend addend => exact Opcode.complete_proceed c _
  | setSegment index offset =>
    rw [act, Opcode.complete_ofUpdate, hset, comp_map]
    rfl
  | advance delta =>
    rw [act, Opcode.complete_ofUpdate, hset, comp_map]
    rfl
  | emit =>
    cases table with
    | none => exact emit _
    | some table =>
      unfold act Eager.denote
      dsimp only
      cases entryAt position r with
      | ok entry => exact Opcode.complete_proceed c _
      | error e => exact Opcode.complete_fail c e _
  | emitThenAdvance delta => exact emit _
  | emitThenAdvanceScaled count => exact emit _
  | emitTimesSkipping count skip =>
    rw [act, Opcode.complete_start (resume_of_none c _) (resume_of_run c _), hset, comp_map]
    rfl
  | startTable size => exact Opcode.complete_proceed c _
  | followChain =>
    unfold act Context.follow Eager.denote
    cases hc : c.image with
    | none => exact Opcode.complete_fail c _ _
    | some found =>
      obtain ⟨image, e⟩ := found
      dsimp only
      rw [complete_follow c hc]
      show (Machine.state ∘ fun r => ⟨r, table⟩) <$>
        Eager.chain c.space image e (table.getD #[]) position r = _
      rw [comp_map]

/-- What is to come of a whole stream is the outcome of its opcodes. -/
theorem outcome_stream (kind : StreamKind) (bytes : Bytes) (c : Context) (limit : Option Nat) :
    (stream kind bytes c limit).outcome = Eager.actions kind bytes c := by
  rw [Eager.actions, MachO.Eager.interpret_eq_outcome,
    ← Program.outcome_map Machine.state (outcome_eq_denote c)]
  exact congrArg (· >>= _) (Opcode.complete_proceed c _)

/-- **A bind stream is its eager interpretation**: drawn one by one, it yields the actions of its
opcodes, each of which is run to completion before the next one is read, and their failure. -/
theorem toList_stream_eq_items (kind : StreamKind) (bytes : Bytes) (c : Context) :
    Source.toList (stream kind bytes c none) = (Eager.actions kind bytes c).items := by
  rw [OpcodeStream.toList_eq_items _ rfl rfl rfl, outcome_stream]

/-- Two symbols are bound in a segment that has room for four slots. -/
example :
    let bytes : Bytes := [
      0x12, 0x41, 95, 97, 0, 0x51, 0x60, 0x7d, 0x70, 0,
      0xb0, 0x40, 95, 98, 0, 0xc0, 2, 0, 0x90, 0x90]
    let items : List (Except DecodeError Action) := [
      .ok ⟨0, 0, 0x1000, "_a", 2, .pointer, -3, 1, 10⟩,
      .ok ⟨0, 8, 0x1008, "_b", 2, .pointer, -3, 0, 15⟩,
      .ok ⟨0, 16, 0x1010, "_b", 2, .pointer, -3, 0, 15⟩,
      .ok ⟨0, 24, 0x1018, "_b", 2, .pointer, -3, 0, 18⟩,
      .error (.slotOutOfBounds 19)]
    Source.toList (stream .normal bytes ⟨exampleSpace, none⟩ none) = items ∧
      (Eager.actions .normal bytes ⟨exampleSpace, none⟩).items = items := by
  decide +kernel

end MachO.Bind
