import MachO.Opcode.Registers
import MachO.Opcode.Stream

/-!
# Emitting actions

Rebase and bind opcodes emit an action at the current place and then move the place behind it.

* `Effect.ofUpdate`: an opcode that only updates registers;
* `emitThenAdvance`: an opcode that emits one action;
* `Run`, `Run.next`, `Run.start`: an opcode that emits many, at equal distances.
-/

namespace MachO

variable {State Action : Type}

/-- The effect of an update of registers, which `wrap` puts into a state. -/
def Effect.ofUpdate (wrap : Registers → State) (update : Registers.Update Unit) (r : Registers) :
    Effect State Action :=
  match update r with
  | .ok _ r' => .proceed (wrap r')
  | .error e r' => .fail e (wrap r')

/-- Emits an action and moves by `delta` bytes.  When the action fails nothing moves, and the
failure of the move is told after the action. -/
def emitThenAdvance (space : AddressSpace) (wrap : Registers → State)
    (action : Registers → Except DecodeError Action) (delta position : Nat) (r : Registers) :
    Effect State Action :=
  match action r with
  | .error e => .fail e (wrap r)
  | .ok a =>
    match Registers.advance space delta position r with
    | .ok _ r' => .emit a none (wrap r')
    | .error e r' => .emit a (some e) (wrap r')

theorem emitThenAdvance_eq_emit {space : AddressSpace} {wrap : Registers → State}
    {action : Registers → Except DecodeError Action} {delta position : Nat} {r : Registers}
    {a : Action} {s : State} (h : emitThenAdvance space wrap action delta position r = .emit a none s) :
    ∃ r', Registers.advance space delta position r = .ok () r' ∧ s = wrap r' := by
  unfold emitThenAdvance at h
  split at h
  · cases h
  · split at h
    · rename_i r' hadvance
      cases h
      exact ⟨r', hadvance, rfl⟩
    · cases h

/-- What is left of an opcode that emits many actions. -/
structure Run where
  /-- The number of actions left, at least one. -/
  remaining : Nat
  /-- The number of bytes between two slots. -/
  skip : Nat
  /-- The position of the opcode. -/
  position : Nat
  deriving DecidableEq, Repr

namespace Run

/-- The distance from one slot to the next. -/
def stride (run : Run) (space : AddressSpace) : Nat := run.skip + space.width.pointerSize

/-- What is left after one more action. -/
def tail? (run : Run) : Option Run :=
  if 1 < run.remaining then some { run with remaining := run.remaining - 1 } else none

/-- Emits one action of a run; `wrap` also takes what is left of it. -/
def next (space : AddressSpace) (wrap : Option Run → Registers → State)
    (action : (position : Nat) → Registers → Except DecodeError Action) (run : Run)
    (r : Registers) : Effect State Action :=
  emitThenAdvance space (wrap run.tail?) (action run.position) (run.stride space) run.position r

/-- Begins a run.  Its stride has to be a 64-bit number, even when it emits nothing. -/
def start (space : AddressSpace) (wrap : Option Run → Registers → State)
    (action : (position : Nat) → Registers → Except DecodeError Action) (run : Run)
    (r : Registers) : Effect State Action :=
  if UInt64.size ≤ run.stride space then .fail (.slotOutOfBounds run.position) (wrap none r)
  else if run.remaining = 0 then .proceed (wrap none r)
  else run.next space wrap action r

theorem stride_pos (run : Run) (space : AddressSpace) : 0 < run.stride space :=
  Nat.lt_of_lt_of_le space.width.pointerSize_pos (Nat.le_add_left _ _)

end Run

end MachO
