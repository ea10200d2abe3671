import MachO.Opcode.Emit
import MachO.Proofs.Opcode.Outcome

/-!
# Streams in changed states

* `Effect.LiftsTo`: an effect is the same in a changed state, unless it fails;
* `Opcode.Lifts`: all opcodes and all suspended ones do the same in changed states, unless they
  fail;
* `OpcodeStream.toList_mapState`: then so does a stream that does not fail;
* `Effect.ofUpdate_liftsTo`, `emitThenAdvance_liftsTo`: opcodes that move and emit.
-/

namespace MachO

variable {Context Op State Action : Type}

/-- The effect with a changed state behind it. -/
def Effect.map (f : State → State) : Effect State Action → Effect State Action
  | .proceed s => .proceed (f s)
  | .emit a late s => .emit a late (f s)
  | .fail e s => .fail e (f s)

/-- Whether an effect is no failure. -/
def Effect.Succeeds : Effect State Action → Prop
  | .fail _ _ => False
  | _ => True

/-- Unless it fails, an effect becomes another one when the state behind it is changed. -/
def Effect.LiftsTo (f : State → State) (effect effect' : Effect State Action) : Prop :=
  effect.Succeeds → effect' = effect.map f

theorem Effect.fail_liftsTo {f : State → State} {e : DecodeError} {s : State}
    (effect : Effect State Action) : (Effect.fail e s).LiftsTo f effect := False.elim

/-! ### Runs of a program -/

section Interpreter

variable [Interpreter Context Op State Action]

/-- Unless they fail, all opcodes do the same in changed states, and so do all suspended ones. -/
structure Opcode.Lifts (c : Context) (f : State → State) : Prop where
  resume : ∀ s, (Interpreter.resume c s).LiftsTo f (Interpreter.resume c (f s))
  act : ∀ position op s,
    (Interpreter.act c position op s).LiftsTo f (Interpreter.act c position op (f s))

variable {c : Context} {f : State → State}

/-- Nothing that is run mends a failure. -/
theorem Opcode.succeeds_of_execute {code : List (Nat × Op)} {effect : Effect State Action}
    (h : (execute c code effect).2.Succeeds) : effect.Succeeds := by
  cases effect with
  | proceed s => trivial
  | emit a late s => trivial
  | fail e s => cases code <;> exact h

theorem Opcode.Lifts.execute (h : Lifts c f) {code : List (Nat × Op)}
    {effect : Effect State Action} (hrun : (Opcode.execute c code effect).2.Succeeds) :
    Opcode.execute c code (effect.map f) =
      ((Opcode.execute c code effect).1, (Opcode.execute c code effect).2.map f) := by
  induction code generalizing effect with
  | nil => cases effect <;> rfl
  | cons head code ih =>
    cases effect with
    | proceed s =>
      obtain ⟨position, op⟩ := head
      have hrun : (Opcode.execute c code (Interpreter.act c position op s)).2.Succeeds := hrun
      show Opcode.execute c code (Interpreter.act c position op (f s)) = _
      rw [h.act position op s (succeeds_of_execute hrun)]
      exact ih hrun
    | emit a late s => rfl
    | fail e s => rfl

namespace OpcodeStream

/-- The stream in a changed state. -/
def mapState (f : State → State) (st : OpcodeStream Context Op State) :
    OpcodeStream Context Op State :=
  { st with state := f st.state }

/-- **One draw is the same in a changed state**, unless it fails. -/
theorem next_mapState {st st' : OpcodeStream Context Op State} (h : Opcode.Lifts st.context f)
    {item : Option (Except DecodeError Action)} (hnext : Source.next st = (item, st'))
    (hitem : ∀ e, item ≠ some (.error e)) :
    Source.next (st.mapState f) = (item, st'.mapState f) := by
  cases hended : st.ended with
  | true =>
    rw [next_of_ended hended] at hnext
    cases hnext
    exact next_of_ended hended
  | false =>
    -- A failure that was found before, or the limit, would be told.
    cases hlate : st.late with
    | some e =>
      rw [next_of_late hended hlate] at hnext
      exact (hitem e (congrArg Prod.fst hnext).symm).elim
    | none =>
      cases hroom : st.exhausted with
      | some limit =>
        rw [next_of_exhausted hended hlate hroom] at hnext
        exact (hitem _ (congrArg Prod.fst hnext).symm).elim
      | none =>
        have hother : Source.next (st.mapState f) = _ := next_of_running hended hlate hroom
        rw [next_of_running hended hlate hroom] at hnext
        cases hrun : Opcode.execute st.context st.code (Interpreter.resume st.context st.state) with
        | mk code effect =>
          rw [hrun] at hnext
          have hsucceeds : effect.Succeeds := by
            cases effect with
            | proceed s => trivial
            | emit a late s => trivial
            | fail e s => exact (hitem e (congrArg Prod.fst hnext).symm).elim
          have hresume := h.resume st.state
            (Opcode.succeeds_of_execute (by rw [hrun]; exact hsucceeds))
          have hexecute := h.execute (by rw [hrun]; exact hsucceeds)
          rw [hrun, ← hresume] at hexecute
          rw [hother, show Opcode.execute (st.mapState f).context (st.mapState f).code
            (Interpreter.resume (st.mapState f).context (st.mapState f).state) = _ from hexecute]
          cases effect with
          | proceed s => cases hnext; rfl
          | emit a late s => cases hnext; rfl
          | fail e s => exact hsucceeds.elim

/-- **A stream without a failure has the same items in a changed state.** -/
theorem toList_mapState (st : OpcodeStream Context Op State) (h : Opcode.Lifts st.context f)
    (hclean : ∀ e, .error e ∉ Source.toList st) :
    Source.toList (st.mapState f) = Source.toList st := by
  cases hnext : Source.next st with
  | mk item st' =>
    match item with
    | none =>
      rw [Source.toList_eq_nil hnext, Source.toList_eq_nil (next_mapState h hnext nofun)]
    | some (.error e) =>
      rw [Source.toList_eq_cons hnext] at hclean
      exact (hclean e List.mem_cons_self).elim
    | some (.ok a) =>
      have hcontext : st'.context = st.context := by
        obtain ⟨-, -, -, code, late, state, -, rfl⟩ := next_eq_ok_iff.1 hnext
        rfl
      rw [Source.toList_eq_cons hnext] at hclean ⊢
      rw [Source.toList_eq_cons (next_mapState h hnext (by simp)),
        toList_mapState st' (hcontext ▸ h) fun e he => hclean e (List.mem_cons_of_mem _ he)]
termination_by Source.rank st
decreasing_by exact Source.rank_lt_of_next_eq hnext

/-- A stream without a failure comes to its end, and no failure is there. -/
theorem ending_eq_none_of_clean (st : OpcodeStream Context Op State) (hended : st.ended = false)
    (hclean : ∀ e, .error e ∉ Source.toList st) : st.ending = none := by
  cases hnext : Source.next st with
  | mk item st' =>
    match item with
    | some (.error e) =>
      rw [Source.toList_eq_cons hnext] at hclean
      exact (hclean e List.mem_cons_self).elim
    | some (.ok a) =>
      rw [Source.toList_eq_cons hnext] at hclean
      obtain ⟨-, -, -, code, late, state, -, hst'⟩ := next_eq_ok_iff.1 hnext
      have hrest := ending_eq_none_of_clean st' (by rw [hst']; exact hended)
        fun e he => hclean e (List.mem_cons_of_mem _ he)
      rw [hst'] at hrest
      exact hrest
    | none =>
      change next st = _ at hnext
      rw [next, if_neg (by simp [hended])] at hnext
      split at hnext
      · cases hnext
      · cases hnext
      · split at hnext
        · cases hnext
        · cases hnext
        · exact Option.map_eq_none_iff.1 (congrArg Prod.fst hnext)
termination_by Source.rank st
decreasing_by exact Source.rank_lt_of_next_eq hnext

end OpcodeStream

end Interpreter

/-! ### Opcodes that move and emit -/

variable {space : AddressSpace} {wrap wrap' : Registers → State} {f : Registers → Registers}
  {g : State → State} {r : Registers}

theorem Effect.ofUpdate_liftsTo {update : Registers.Update Unit}
    (hwrap : ∀ r, wrap' (f r) = g (wrap r))
    (hupdate : ∀ u r', update r = .ok u r' → update (f r) = .ok u (f r')) :
    (Effect.ofUpdate wrap update r : Effect State Action).LiftsTo g
      (Effect.ofUpdate wrap' update (f r)) := by
  unfold Effect.ofUpdate
  cases h : update r with
  | ok u r' =>
    intro _
    rw [hupdate u r' h]
    exact congrArg Effect.proceed (hwrap r')
  | error e r' => exact Effect.fail_liftsTo _

/-- An opcode that emits lifts if the move behind the action does, whether it fails or not. -/
theorem emitThenAdvance_liftsTo {action : Registers → Except DecodeError Action}
    {delta position : Nat} (hwrap : ∀ r, wrap' (f r) = g (wrap r))
    (haction : ∀ a, action r = .ok a → action (f r) = .ok a)
    (hok : ∀ u r', Registers.advance space delta position r = .ok u r' →
      Registers.advance space delta position (f r) = .ok u (f r'))
    (herror : ∀ e r', Registers.advance space delta position r = .error e r' →
      Registers.advance space delta position (f r) = .error e (f r')) :
    (emitThenAdvance space wrap action delta position r).LiftsTo g
      (emitThenAdvance space wrap' action delta position (f r)) := by
  unfold emitThenAdvance
  cases ha : action r with
  | error e => exact Effect.fail_liftsTo _
  | ok a =>
    intro _
    rw [haction a ha]
    cases h : Registers.advance space delta position r with
    | ok u r' =>
      rw [hok u r' h]
      exact congrArg (Effect.emit a none) (hwrap r')
    | error e r' =>
      rw [herror e r' h]
      exact congrArg (Effect.emit a (some e)) (hwrap r')

end MachO
