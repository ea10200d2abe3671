import MachO.Opcode.Stream
import MachO.Proofs.Stream.Drain

/-!
# Outcomes of opcodes

An opcode that is run to completion at once has an outcome: the actions that it emits, and what
comes behind the last of them.

* `Outcome`: actions, and a value or a failure behind them.  Outcomes are sequenced as a monad, in
  which nothing follows a failure;
* `Outcome.items`: the items of a source with these actions and this failure;
* `Opcode.complete`: the outcome of an effect, with all that is left of a suspended opcode;
* `OpcodeStream.next_of_ended`, `OpcodeStream.next_of_late`, `OpcodeStream.next_of_exhausted`,
  `OpcodeStream.next_of_running`: one draw;
* `OpcodeStream.toList_eq_items`: the items of a stream without a limit are those of its opcodes,
  each run to completion.
-/

namespace MachO

/-- The actions that were emitted, and a value or a failure behind the last one. -/
structure Outcome (Action α : Type) where
  actions : List Action
  result : Except DecodeError α

namespace Outcome

variable {Action α β γ : Type}

/-- A failure without an action. -/
def fail (e : DecodeError) : Outcome Action α := ⟨[], .error e⟩

/-- One action. -/
def emit (a : Action) : Outcome Action Unit := ⟨[a], .ok ()⟩

/-- A value or a failure without an action. -/
def ofExcept (result : Except DecodeError α) : Outcome Action α := ⟨[], result⟩

/-- The end of a stream, which may be a failure. -/
def ofEnding : Option DecodeError → Outcome Action Unit
  | none => ⟨[], .ok ()⟩
  | some e => fail e

instance : Monad (Outcome Action) where
  pure a := ⟨[], .ok a⟩
  bind o f :=
    match o.result with
    | .ok a => ⟨o.actions ++ (f a).actions, (f a).result⟩
    | .error e => ⟨o.actions, .error e⟩

/-- The items of a source that emits the actions and then tells the failure. -/
def items (o : Outcome Action α) : List (Except DecodeError Action) :=
  o.actions.map .ok ++
    match o.result with
    | .ok _ => []
    | .error e => [.error e]

theorem bind_ok (actions : List Action) (a : α) (f : α → Outcome Action β) :
    (⟨actions, .ok a⟩ : Outcome Action α) >>= f = ⟨actions ++ (f a).actions, (f a).result⟩ := rfl

@[simp] theorem fail_bind (e : DecodeError) (f : α → Outcome Action β) :
    (fail e : Outcome Action α) >>= f = fail e := rfl

/-- Appending actions in front does not depend on what follows. -/
theorem bind_bind (o : Outcome Action α) (f : α → Outcome Action β) (g : β → Outcome Action γ) :
    o >>= f >>= g = o >>= fun a => f a >>= g := by
  obtain ⟨actions, _ | a⟩ := o
  · rfl
  · rw [bind_ok, bind_ok]
    obtain ⟨actions', _ | b⟩ := f a
    · rfl
    · rw [bind_ok, bind_ok, List.append_assoc]

instance : LawfulMonad (Outcome Action) :=
  LawfulMonad.mk' _
    (by
      rintro α ⟨actions, _ | a⟩
      · rfl
      · show (⟨actions ++ [], .ok a⟩ : Outcome Action α) = _
        rw [List.append_nil])
    (fun _ _ => rfl) bind_bind

@[simp] theorem items_fail (e : DecodeError) :
    (fail e : Outcome Action α).items = [.error e] := rfl

@[simp] theorem items_emit_bind (a : Action) (f : Unit → Outcome Action β) :
    (emit a >>= f).items = .ok a :: (f ()).items := rfl

theorem map_ok (actions : List Action) (a : α) (f : α → β) :
    f <$> (⟨actions, .ok a⟩ : Outcome Action α) = ⟨actions, .ok (f a)⟩ := by
  show (⟨actions ++ [], .ok (f a)⟩ : Outcome Action β) = _
  rw [List.append_nil]

theorem items_bind_ok (actions : List Action) (a : α) (f : α → Outcome Action β) :
    ((⟨actions, .ok a⟩ : Outcome Action α) >>= f).items = actions.map .ok ++ (f a).items := by
  rw [bind_ok, items, items, List.map_append, List.append_assoc]

@[simp] theorem items_ofEnding (ending : Option DecodeError) :
    (ofEnding ending : Outcome Action Unit).items = (ending.map .error).toList := by
  cases ending <;> rfl

end Outcome

namespace Program

variable {Op Machine Action : Type}

/-- Runs all opcodes of a program, each to completion, when `denote` tells the outcome of one. -/
def outcome (denote : (position : Nat) → Op → Machine → Outcome Action Machine)
    (p : Program Op) (m : Machine) : Outcome Action Unit := do
  let _ ← p.code.foldlM (fun m (position, op) => denote position op m) m
  .ofEnding p.ending

@[simp] theorem outcome_nil (denote : (position : Nat) → Op → Machine → Outcome Action Machine)
    (ending : Option DecodeError) (m : Machine) :
    outcome denote ⟨[], ending⟩ m = .ofEnding ending := rfl

@[simp] theorem outcome_cons (denote : (position : Nat) → Op → Machine → Outcome Action Machine)
    (position : Nat) (op : Op) (code : List (Nat × Op)) (ending : Option DecodeError)
    (m : Machine) :
    outcome denote ⟨(position, op) :: code, ending⟩ m =
      denote position op m >>= outcome denote ⟨code, ending⟩ := by
  unfold outcome
  rw [List.foldlM_cons, bind_assoc]

end Program

namespace Opcode

variable {Context Op State Action : Type} [Interpreter Context Op State Action]

/-- A bound on the actions that come behind an effect, before the next opcode. -/
def rank (c : Context) : Effect State Action → Nat
  | .emit _ none s => Interpreter.weight c s + 1
  | _ => 0

theorem rank_resume_lt (c : Context) (s : State) :
    rank c (Interpreter.resume c s) < Interpreter.weight c s + 1 := by
  cases h : Interpreter.resume c s with
  | proceed s' => exact Nat.succ_pos _
  | fail e s' => exact Nat.succ_pos _
  | emit a late s' =>
    cases late with
    | some e => exact Nat.succ_pos _
    | none => exact Nat.succ_lt_succ (Interpreter.weight_lt_of_resume h)

/-- Goes on with what an effect leaves suspended, until the opcode is complete. -/
def complete (c : Context) : Effect State Action → Outcome Action State
  | .proceed s => pure s
  | .fail e _ => .fail e
  | .emit a (some e) _ => do
    .emit a
    .fail e
  | .emit a none s => do
    .emit a
    complete c (Interpreter.resume c s)
termination_by effect => rank c effect
decreasing_by exact rank_resume_lt c s

@[simp] theorem complete_proceed (c : Context) (s : State) :
    complete c (.proceed s) = pure s := by rw [complete]

@[simp] theorem complete_fail (c : Context) (e : DecodeError) (s : State) :
    complete c (.fail e s) = .fail e := by rw [complete]

@[simp] theorem complete_emit_late (c : Context) (a : Action) (e : DecodeError) (s : State) :
    complete c (.emit a (some e) s) = (do .emit a; .fail e) := by rw [complete]

theorem complete_emit (c : Context) (a : Action) (s : State) :
    complete c (.emit a none s) = (do .emit a; complete c (Interpreter.resume c s)) := by
  rw [complete]

/-- The outcome of an opcode that is begun in a state. -/
def outcome (c : Context) (position : Nat) (op : Op) (s : State) : Outcome Action State :=
  complete c (Interpreter.act c position op s)

/-- Running opcodes up to the first that emits or fails does not change the outcome. -/
theorem complete_execute (c : Context) (ending : Option DecodeError) (code : List (Nat × Op))
    (effect : Effect State Action) :
    complete c effect >>= Program.outcome (outcome c) ⟨code, ending⟩ =
      complete c (execute c code effect).2 >>=
        Program.outcome (outcome c) ⟨(execute c code effect).1, ending⟩ := by
  induction code generalizing effect with
  | nil => rfl
  | cons head code ih =>
    cases effect with
    | proceed s =>
      obtain ⟨position, op⟩ := head
      rw [complete_proceed, pure_bind, Program.outcome_cons]
      exact ih _
    -- Opcodes behind one that emits or fails are not run yet.
    | emit a late s => rfl
    | fail e s => rfl

/-- Only at the end of a program no opcode emits or fails. -/
theorem eq_nil_of_execute_eq_proceed {c : Context} {code code' : List (Nat × Op)}
    {effect : Effect State Action} {s : State} (h : execute c code effect = (code', .proceed s)) :
    code' = [] := by
  induction code generalizing effect with
  | nil => exact (congrArg Prod.fst h).symm
  | cons head code ih =>
    cases effect with
    | proceed s' => exact ih h
    | emit a late s' => cases h
    | fail e s' => cases h

end Opcode

namespace OpcodeStream

variable {Context Op State Action : Type} [Interpreter Context Op State Action]

/-- What is still to come of a stream: the rest of a suspended opcode, and the opcodes behind it. -/
def outcome (st : OpcodeStream Context Op State) : Outcome Action Unit :=
  Opcode.complete st.context (Interpreter.resume st.context st.state) >>=
    Program.outcome (Opcode.outcome st.context) ⟨st.code, st.ending⟩

/-! ### One draw -/

theorem exhausted_of_limit_eq_none {st : OpcodeStream Context Op State} (h : st.limit = none) :
    st.exhausted = none := by
  unfold exhausted
  rw [h]
  rfl

theorem next_of_ended {st : OpcodeStream Context Op State} (h : st.ended = true) :
    Source.next st = (none, st) := by
  show next st = _
  unfold next
  rw [if_pos h]

/-- The failure of the move behind the last action comes first. -/
theorem next_of_late {st : OpcodeStream Context Op State} {e : DecodeError}
    (hended : st.ended = false) (hlate : st.late = some e) :
    Source.next st = (some (.error e), { st with late := none, ended := true }) := by
  show next st = _
  unfold next
  rw [if_neg (by simp [hended]), hlate]

theorem next_of_exhausted {st : OpcodeStream Context Op State} {limit : Nat}
    (hended : st.ended = false) (hlate : st.late = none) (hroom : st.exhausted = some limit) :
    Source.next st = (some (.error (.tooManyActions limit)), { st with ended := true }) := by
  show next st = _
  unfold next
  rw [if_neg (by simp [hended]), hlate, hroom]

/-- A draw from a stream that goes on runs opcodes up to the first that emits or fails. -/
theorem next_of_running {st : OpcodeStream Context Op State} (hended : st.ended = false)
    (hlate : st.late = none) (hroom : st.exhausted = none) :
    Source.next st =
      match Opcode.execute st.context st.code (Interpreter.resume st.context st.state) with
      | (code, .emit a late state) =>
        (some (.ok a), { st with code, state, late, emitted := st.emitted + 1 })
      | (code, .fail e state) => (some (.error e), { st with code, state, ended := true })
      | (code, .proceed state) =>
        (st.ending.map .error, { st with code, state, ended := true }) := by
  show next st = _
  unfold next
  rw [if_neg (by simp [hended])]
  split
  -- Neither a late failure nor the limit comes before the opcodes.
  · rename_i h
    rw [hlate] at h
    cases h
  · rename_i h
    rw [hroom] at h
    cases h
  · rfl

/-- A program does not change what it is run in. -/
theorem context_next (st : OpcodeStream Context Op State) :
    (Source.next st).2.context = st.context := by
  show (next st).2.context = _
  unfold next
  repeat' split
  all_goals rfl

theorem toList_of_ended {st : OpcodeStream Context Op State} (h : st.ended = true) :
    Source.toList st = [] := Source.toList_eq_nil (next_of_ended h)

theorem toList_of_late {st : OpcodeStream Context Op State} {e : DecodeError}
    (hended : st.ended = false) (hlate : st.late = some e) : Source.toList st = [.error e] := by
  rw [Source.toList_eq_cons (next_of_late hended hlate), toList_of_ended rfl]

theorem toList_of_next_eq_ended {st st' : OpcodeStream Context Op State}
    {item : Option (Except DecodeError Action)} (h : Source.next st = (item, st'))
    (hended : st'.ended = true) : Source.toList st = item.toList := by
  cases item with
  | none => exact Source.toList_eq_nil h
  | some item => rw [Source.toList_eq_cons h, toList_of_ended hended]; rfl

/-- **What a draw does that finds an action.** -/
theorem next_eq_ok_iff {st st' : OpcodeStream Context Op State} {a : Action} :
    Source.next st = (some (.ok a), st') ↔
      st.ended = false ∧ st.late = none ∧ st.exhausted = none ∧
        ∃ code late state,
          Opcode.execute st.context st.code (Interpreter.resume st.context st.state) =
            (code, .emit a late state) ∧
          st' = { st with code, state, late, emitted := st.emitted + 1 } := by
  constructor
  · intro h
    change next st = _ at h
    unfold next at h
    split at h
    · cases h
    · rename_i hended
      split at h
      · cases h
      · cases h
      · rename_i hlate hroom
        refine ⟨by simpa using hended, hlate, hroom, ?_⟩
        split at h
        · rename_i hrun
          cases h
          exact ⟨_, _, _, hrun, rfl⟩
        · cases h
        · cases hending : st.ending <;> rw [hending] at h <;> cases h
  · rintro ⟨hended, hlate, hroom, code, late, state, hrun, rfl⟩
    rw [next_of_running hended hlate hroom, hrun]

/-- A draw that finds no action ends the stream. -/
theorem ended_of_next_eq {st st' : OpcodeStream Context Op State}
    {item : Option (Except DecodeError Action)} (hnext : Source.next st = (item, st'))
    (hitem : ∀ a, item ≠ some (.ok a)) : st'.ended = true := by
  cases hended : st.ended with
  | true =>
    cases hnext.symm.trans (next_of_ended hended)
    exact hended
  | false =>
    cases hlate : st.late with
    | some e =>
      cases hnext.symm.trans (next_of_late hended hlate)
      rfl
    | none =>
      cases hroom : st.exhausted with
      | some limit =>
        cases hnext.symm.trans (next_of_exhausted hended hlate hroom)
        rfl
      | none =>
        rw [next_of_running hended hlate hroom] at hnext
        split at hnext
        · rename_i a late state _
          exact (hitem a (congrArg Prod.fst hnext).symm).elim
        · cases hnext
          rfl
        · cases hnext
          rfl

theorem ended_of_next_eq_none {st st' : OpcodeStream Context Op State}
    (hnext : next st = (none, st')) : st'.ended = true := ended_of_next_eq hnext (by simp)

/-- A failure ends the stream. -/
theorem ended_of_next_eq_error {st st' : OpcodeStream Context Op State} {e : DecodeError}
    (hnext : next st = (some (.error e), st')) : st'.ended = true :=
  ended_of_next_eq hnext (by simp)

instance : Source.Fused (OpcodeStream Context Op State) where
  toList_of_none h := toList_of_ended (ended_of_next_eq_none h)
  toList_of_error h := toList_of_ended (ended_of_next_eq_error h)

/-- **Suspension is invisible**: the items of a stream without a limit are those of its opcodes,
each of which is run to completion before the next one is begun. -/
theorem toList_eq_items (st : OpcodeStream Context Op State) (hended : st.ended = false)
    (hlate : st.late = none) (hlimit : st.limit = none) : Source.toList st = st.outcome.items := by
  have hroom := exhausted_of_limit_eq_none hlimit
  have hnext := next_of_running hended hlate hroom
  unfold outcome
  rw [Opcode.complete_execute]
  cases hrun : Opcode.execute st.context st.code (Interpreter.resume st.context st.state) with
  | mk code effect =>
    rw [hrun] at hnext
    cases effect with
    | proceed s =>
      cases Opcode.eq_nil_of_execute_eq_proceed hrun
      rw [toList_of_next_eq_ended hnext rfl, Opcode.complete_proceed, pure_bind,
        Program.outcome_nil, Outcome.items_ofEnding]
    | fail e s =>
      rw [toList_of_next_eq_ended hnext rfl, Opcode.complete_fail, Outcome.fail_bind,
        Outcome.items_fail]
      rfl
    | emit a late s =>
      rw [Source.toList_eq_cons hnext]
      let st' : OpcodeStream Context Op State :=
        { st with code, state := s, late, emitted := st.emitted + 1 }
      cases late with
      | some e =>
        have hlist : Source.toList st' = [.error e] := toList_of_late hended rfl
        rw [Opcode.complete_emit_late, bind_assoc, Outcome.items_emit_bind, Outcome.fail_bind,
          Outcome.items_fail, ← hlist]
      | none =>
        -- The rest of the opcode is the beginning of what is still to come behind the action.
        have hlist : Source.toList st' = st'.outcome.items :=
          toList_eq_items st' hended rfl hlimit
        rw [Opcode.complete_emit, bind_assoc, Outcome.items_emit_bind]
        exact congrArg (.ok a :: ·) hlist
termination_by Source.rank st
decreasing_by exact Source.rank_lt_of_next_eq hnext

end OpcodeStream

end MachO
