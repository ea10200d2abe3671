import MachO.Opcode.Program
import MachO.Stream.Source

/-!
# Running opcode programs

A program is run one action at a time.  An opcode that stands for several actions is suspended
between them, and a failure of the move behind an action is told when the next one is asked for.

* `Effect`: what an opcode does;
* `Interpreter`: the meaning of opcodes, and of what is left of a suspended one;
* `Opcode.execute`: runs opcodes up to the first that emits or fails;
* `OpcodeStream`: a program under way, as a source of actions, with an optional limit on their
  number.
-/

namespace MachO

/-- What an opcode, or the rest of a suspended one, does. -/
inductive Effect (State Action : Type)
  /-- It is complete, and the next opcode follows. -/
  | proceed (state : State)
  /-- It emits an action.  The move behind the action may have failed. -/
  | emit (action : Action) (late : Option DecodeError) (state : State)
  | fail (error : DecodeError) (state : State)

/-- The meaning of opcodes, in a context that a program does not change. -/
class Interpreter (Context : Type) (Op State Action : outParam Type) where
  /-- Goes on with a suspended opcode, if there is one. -/
  resume : Context → State → Effect State Action
  /-- What the opcode at a position does. -/
  act : Context → (position : Nat) → Op → State → Effect State Action
  /-- Bounds the actions of a suspended opcode. -/
  weight : Context → State → Nat
  /-- A bound on all weights. -/
  bound : Context → Nat
  weight_lt_bound : ∀ c s, weight c s < bound c
  weight_lt_of_resume : ∀ {c s a s'}, resume c s = .emit a none s' → weight c s' < weight c s

namespace Opcode

variable {Context Op State Action : Type} [Interpreter Context Op State Action]

/-- Runs opcodes after an effect, up to the first that emits or fails.  The result is what is left
of the opcodes, and the last effect. -/
def execute (c : Context) :
    List (Nat × Op) → Effect State Action → List (Nat × Op) × Effect State Action
  | (position, op) :: code, .proceed s => execute c code (Interpreter.act c position op s)
  | code, effect => (code, effect)

/-- An action comes from the effect at the start, or from an opcode, which is then gone. -/
theorem execute_eq_emit {c : Context} {code code' : List (Nat × Op)} {a : Action}
    {late : Option DecodeError} {s : State} {effect : Effect State Action}
    (h : execute c code effect = (code', .emit a late s)) :
    (code' = code ∧ effect = .emit a late s) ∨ code'.length < code.length := by
  induction code generalizing effect with
  | nil =>
    simp only [execute, Prod.mk.injEq] at h
    exact .inl ⟨h.1.symm, h.2⟩
  | cons head code ih =>
    cases effect with
    | proceed s₀ =>
      simp only [execute] at h
      rcases ih h with ⟨rfl, -⟩ | hlt
      · exact .inr (by simp)
      · exact .inr (Nat.lt_succ_of_lt hlt)
    | emit a₀ late₀ s₀ =>
      simp only [execute, Prod.mk.injEq] at h
      exact .inl ⟨h.1.symm, h.2⟩
    | fail e₀ s₀ => simp [execute] at h

end Opcode

/-- A program under way. -/
structure OpcodeStream (Context Op State : Type) where
  context : Context
  /-- The opcodes that were not begun. -/
  code : List (Nat × Op)
  /-- The failure behind the last opcode. -/
  ending : Option DecodeError
  state : State
  /-- The failure of the move behind the last action. -/
  late : Option DecodeError
  /-- The number of actions so far. -/
  emitted : Nat
  /-- The largest number of actions. -/
  limit : Option Nat
  /-- Whether the program failed or has come to its end. -/
  ended : Bool

namespace OpcodeStream

variable {Context Op State Action : Type}

/-- A program of which nothing was run. -/
def ofProgram (context : Context) (program : Program Op) (state : State) (limit : Option Nat) :
    OpcodeStream Context Op State where
  context
  code := program.code
  ending := program.ending
  state
  late := none
  emitted := 0
  limit
  ended := false

variable [Interpreter Context Op State Action]

/-- Whether as many actions were emitted as may be. -/
def exhausted (s : OpcodeStream Context Op State) : Option Nat :=
  s.limit.filter (· ≤ s.emitted)

/-- The next action, or the failure that is told instead. -/
def next (s : OpcodeStream Context Op State) :
    Option (Except DecodeError Action) × OpcodeStream Context Op State :=
  if s.ended then (none, s)
  else
    match s.late, s.exhausted with
    | some e, _ => (some (.error e), { s with late := none, ended := true })
    | none, some limit => (some (.error (.tooManyActions limit)), { s with ended := true })
    | none, none =>
      match Opcode.execute s.context s.code (Interpreter.resume s.context s.state) with
      | (code, .emit a late state) =>
        (some (.ok a), { s with code, state, late, emitted := s.emitted + 1 })
      | (code, .fail e state) => (some (.error e), { s with code, state, ended := true })
      | (code, .proceed state) => (s.ending.map .error, { s with code, state, ended := true })

/-- More than the number of items still to come. -/
def rank (s : OpcodeStream Context Op State) : Nat :=
  if s.ended then 0
  else if s.late.isSome then 1
  else 2 + s.code.length * Interpreter.bound s.context + Interpreter.weight s.context s.state

theorem rank_next_lt (s : OpcodeStream Context Op State) (h : (next s).1.isSome) :
    rank (next s).2 < rank s := by
  have pos : s.ended = false → 0 < rank s := by
    intro hended
    simp only [rank, hended, Bool.false_eq_true, if_false]
    split <;> omega
  revert h
  unfold next
  split
  · simp
  · rename_i hended
    have hended : s.ended = false := by simpa using hended
    split
    · intro _
      exact pos hended
    · intro _
      exact pos hended
    · rename_i hlate _
      split
      · rename_i code a late state hrun
        intro _
        cases late with
        | some e =>
          simp only [rank, hended, hlate, Option.isSome_some, Option.isSome_none, if_true,
            Bool.false_eq_true, if_false]
          omega
        | none =>
          simp only [rank, hended, hlate, Option.isSome_none, Bool.false_eq_true, if_false]
          rcases Opcode.execute_eq_emit hrun with ⟨rfl, hresume⟩ | hlt
          · have := Interpreter.weight_lt_of_resume hresume
            omega
          · have hbound := Interpreter.weight_lt_bound s.context state
            have := Nat.mul_le_mul_right (Interpreter.bound s.context) (Nat.succ_le_of_lt hlt)
            rw [Nat.succ_mul] at this
            omega
      · intro _
        exact pos hended
      · intro _
        exact pos hended

instance : Source (OpcodeStream Context Op State) Action where
  next := next
  rank := rank
  rank_next_lt := rank_next_lt

end OpcodeStream

end MachO
