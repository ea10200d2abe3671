import MachO.Opcode.Emit
import MachO.Proofs.Opcode.Outcome

/-!
# Running opcodes eagerly

The reference for opcode streams reads an opcode, runs it to completion, and only then reads the
next one.  Nothing is suspended in it: its state is what one opcode leaves to the next.

* `Eager.slot`: emits one action and moves behind it;
* `Eager.slots`, `Eager.times`: emit a number of actions at equal distances;
* `Eager.interpret`: all opcodes from a cursor on;
* `Eager.interpret_eq_outcome`: the opcodes may also be read in advance;
* `Opcode.complete_emitThenAdvance`, `Opcode.complete_next`, `Opcode.complete_start`: suspended
  opcodes agree with `Eager.slot` and `Eager.slots`.
-/

namespace MachO

variable {Op Machine State Action : Type}

/-- The outcome of an update of registers. -/
def Outcome.ofUpdate (update : Registers.Update Unit) (r : Registers) :
    Outcome Action Registers :=
  match update r with
  | .ok _ r' => pure r'
  | .error e _ => .fail e

theorem Outcome.ofUpdate_of_ok {update : Registers.Update Unit} {r r' : Registers} {u : Unit}
    (h : update r = .ok u r') : (ofUpdate update r : Outcome Action Registers) = pure r' := by
  rw [ofUpdate, h]

theorem Outcome.ofUpdate_of_error {update : Registers.Update Unit} {r r' : Registers}
    {e : DecodeError} (h : update r = .error e r') :
    (ofUpdate update r : Outcome Action Registers) = .fail e := by
  rw [ofUpdate, h]

namespace Eager

/-- Emits an action at the current slot, and then moves by `delta` bytes. -/
def slot (space : AddressSpace) (action : Registers → Except DecodeError Action)
    (delta position : Nat) (r : Registers) : Outcome Action Registers := do
  let a ← .ofExcept (action r)
  .emit a
  .ofUpdate (Registers.advance space delta position) r

theorem slot_of_ok {space : AddressSpace} {action : Registers → Except DecodeError Action}
    {delta position : Nat} {r r' : Registers} {a : Action} {u : Unit} (haction : action r = .ok a)
    (hadvance : Registers.advance space delta position r = .ok u r') :
    slot space action delta position r = (do .emit a; return r') := by
  rw [slot, haction, Outcome.ofUpdate_of_ok hadvance]
  rfl

/-- Emits actions at a number of slots, from each of which the next one is `stride` bytes away. -/
def slots (space : AddressSpace) (action : Registers → Except DecodeError Action)
    (stride position : Nat) : (count : Nat) → Registers → Outcome Action Registers
  | 0, r => pure r
  | count + 1, r => do
    let r ← slot space action stride position r
    slots space action stride position count r

/-- Emits actions at a number of slots with `skip` bytes between them.  The distance from one slot
to the next has to be a 64-bit number, even where there is no slot. -/
def times (space : AddressSpace)
    (action : (position : Nat) → Registers → Except DecodeError Action)
    (count skip position : Nat) (r : Registers) : Outcome Action Registers :=
  let stride := skip + space.width.pointerSize
  if UInt64.size ≤ stride then .fail (.slotOutOfBounds position)
  else slots space (action position) stride position count r

/-- Reads opcodes from a cursor on, each of which is run to completion before the next one is read;
`denote` tells the outcome of one. -/
def interpret (ops : OpcodeSet Op) (rule : DoneRule)
    (denote : (position : Nat) → Op → Machine → Outcome Action Machine) (c : Cursor)
    (m : Machine) : Outcome Action Unit :=
  if c.atEnd then .ofEnding (Program.exhausted rule c.pos)
  else
    match h : ops.read c with
    | .error e _ => .fail e
    | .ok none c' =>
      if rule = .ignored then
        have := ops.moves_read.length_lt h
        interpret ops rule denote c' m
      else .ofEnding (Program.done rule c')
    | .ok (some op) c' =>
      have := ops.moves_read.length_lt h
      do
        let m ← denote c.pos op m
        interpret ops rule denote c' m
termination_by c.rest.length

section Interpret

variable {ops : OpcodeSet Op} {rule : DoneRule}
  {denote : (position : Nat) → Op → Machine → Outcome Action Machine} {c c' : Cursor}

theorem interpret_of_atEnd (hend : c.atEnd) (m : Machine) :
    interpret ops rule denote c m = .ofEnding (Program.exhausted rule c.pos) := by
  rw [interpret, if_pos hend]

theorem interpret_of_error (hend : ¬c.atEnd) {e : DecodeError} (hread : ops.read c = .error e c')
    (m : Machine) : interpret ops rule denote c m = .fail e := by
  rw [interpret, if_neg hend]
  split <;> rename_i h <;> cases hread.symm.trans h
  rfl

theorem interpret_of_done (hend : ¬c.atEnd) (hread : ops.read c = .ok none c') (m : Machine) :
    interpret ops rule denote c m =
      if rule = .ignored then interpret ops rule denote c' m
      else .ofEnding (Program.done rule c') := by
  rw [interpret, if_neg hend]
  split <;> rename_i h <;> cases hread.symm.trans h
  rfl

theorem interpret_of_op (hend : ¬c.atEnd) {op : Op} (hread : ops.read c = .ok (some op) c')
    (m : Machine) :
    interpret ops rule denote c m = denote c.pos op m >>= interpret ops rule denote c' := by
  rw [interpret, if_neg hend]
  split <;> rename_i h <;> cases hread.symm.trans h
  rfl

end Interpret

/-- It makes no difference whether an opcode is read before those in front of it are run. -/
theorem interpret_eq_outcome (ops : OpcodeSet Op) (rule : DoneRule)
    (denote : (position : Nat) → Op → Machine → Outcome Action Machine) (c : Cursor)
    (m : Machine) :
    interpret ops rule denote c m = (Program.ofCursor ops rule c).outcome denote m := by
  fun_induction Program.ofCursor ops rule c generalizing m with
  | case1 c hend => exact interpret_of_atEnd hend m
  | case2 c hend e c' hread => exact interpret_of_error hend hread m
  | case3 c hend c' hread hrule _ ih =>
    rw [interpret_of_done hend hread, if_pos hrule]
    exact ih m
  | case4 c hend c' hread hrule =>
    rw [interpret_of_done hend hread, if_neg hrule]
    rfl
  | case5 c hend op c' hread _ rest ih =>
    rw [interpret_of_op hend hread, Program.outcome_cons]
    exact bind_congr ih

end Eager

/-- A program has one outcome on two machines whose opcodes agree. -/
theorem Program.outcome_map {State : Type} (wrap : Machine → State)
    {denote : (position : Nat) → Op → Machine → Outcome Action Machine}
    {denote' : (position : Nat) → Op → State → Outcome Action State}
    (h : ∀ position op m, denote' position op (wrap m) = wrap <$> denote position op m)
    (p : Program Op) (m : Machine) : p.outcome denote' (wrap m) = p.outcome denote m := by
  obtain ⟨code, ending⟩ := p
  induction code generalizing m with
  | nil => rfl
  | cons head code ih =>
    obtain ⟨position, op⟩ := head
    rw [outcome_cons, outcome_cons, h, bind_map_left]
    exact bind_congr ih

namespace Opcode

variable {Context : Type} [Interpreter Context Op State Action] {c : Context}
  {space : AddressSpace}

theorem complete_ofUpdate (wrap : Registers → State) (update : Registers.Update Unit)
    (r : Registers) :
    complete c (Effect.ofUpdate wrap update r) = wrap <$> Outcome.ofUpdate update r := by
  unfold Effect.ofUpdate Outcome.ofUpdate
  cases update r with
  | ok _ r' => exact complete_proceed c (wrap r')
  | error e r' => exact complete_fail c e (wrap r')

/-- A failed move behind an action comes right after it. -/
theorem complete_emitThenAdvance (wrap : Registers → State)
    (action : Registers → Except DecodeError Action) (delta position : Nat) (r : Registers) :
    complete c (emitThenAdvance space wrap action delta position r) = (do
      let r ← Eager.slot space action delta position r
      complete c (Interpreter.resume c (wrap r))) := by
  unfold emitThenAdvance Eager.slot Outcome.ofUpdate
  cases action r with
  | error e => exact complete_fail c e (wrap r)
  | ok a =>
    cases Registers.advance space delta position r with
    | ok _ r' => exact complete_emit c a (wrap r')
    | error e r' => exact complete_emit_late c a e (wrap r')

section Run

variable {wrap : Option Run → Registers → State}
  {action : (position : Nat) → Registers → Except DecodeError Action}

/-- The rest of a run emits one action for each slot that is left. -/
theorem complete_next (hnone : ∀ r, Interpreter.resume c (wrap none r) = .proceed (wrap none r))
    (hsome : ∀ run r, Interpreter.resume c (wrap (some run) r) = run.next space wrap action r)
    (remaining skip position : Nat) (r : Registers) :
    complete c (Run.next space wrap action ⟨remaining + 1, skip, position⟩ r) =
      wrap none <$> Eager.slots space (action position) (skip + space.width.pointerSize) position
        (remaining + 1) r := by
  induction remaining generalizing r with
  | zero =>
    -- Behind the last action nothing is suspended.
    unfold Run.next Eager.slots
    rw [complete_emitThenAdvance, map_bind]
    refine bind_congr fun r' => ?_
    show complete c (Interpreter.resume c (wrap none r')) = wrap none <$> pure r'
    rw [hnone, complete_proceed, map_pure]
  | succ remaining ih =>
    have htail : Run.tail? ⟨remaining + 1 + 1, skip, position⟩ =
        some ⟨remaining + 1, skip, position⟩ := if_pos (by simp)
    unfold Run.next Eager.slots
    rw [complete_emitThenAdvance, map_bind, htail]
    refine bind_congr fun r' => ?_
    rw [hsome, ih]

/-- A run that is begun emits all its actions. -/
theorem complete_start (hnone : ∀ r, Interpreter.resume c (wrap none r) = .proceed (wrap none r))
    (hsome : ∀ run r, Interpreter.resume c (wrap (some run) r) = run.next space wrap action r)
    (run : Run) (r : Registers) :
    complete c (run.start space wrap action r) =
      wrap none <$> Eager.times space action run.remaining run.skip run.position r := by
  obtain ⟨remaining, skip, position⟩ := run
  unfold Run.start Eager.times
  by_cases hstride : UInt64.size ≤ skip + space.width.pointerSize
  · rw [if_pos hstride, Run.stride, if_pos hstride]
    exact complete_fail c _ _
  · rw [if_neg hstride, Run.stride, if_neg hstride]
    cases remaining with
    | zero => exact complete_proceed c _
    | succ remaining => exact complete_next hnone hsome remaining skip position r

end Run

end Opcode

end MachO
