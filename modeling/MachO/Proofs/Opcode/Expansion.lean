import MachO.Proofs.Opcode.EmitFirst
import MachO.Proofs.Opcode.Invariant
import MachO.Proofs.Opcode.Positions

/-!
# Opcodes in place of each other

* `OpcodeStream.withRest`: a stream with other opcodes to come, in another state;
* `OpcodeStream.Runs`, `OpcodeStream.toList_withRest_congr`: what its items depend on;
* `Opcode.Idle`, `Opcode.Settles`: no opcode is suspended when the next one is begun;
* `Opcode.Interchangeable`: opcodes that make no difference in place of each other, where a stream
  comes to them, with `Opcode.Interchangeable.toList_eq`: opcodes in front of them do not matter;
* `OpcodeStream.toList_expansion`: the items of a stream of which one opcode is replaced;
* `Run.Resumed.toList_times`: many actions by one opcode or by as many opcodes;
* `OpcodeStream.toList_split`: a move behind an action by the same or by another opcode.
-/

namespace MachO

variable {Context Op State Action : Type} [Interpreter Context Op State Action]

/-! ### Streams with other opcodes to come -/

namespace OpcodeStream

variable {st : OpcodeStream Context Op State}

/-- The stream with other opcodes to come, in a state. -/
def withRest (st : OpcodeStream Context Op State) (code : List (Nat × Op)) (s : State) :
    OpcodeStream Context Op State :=
  { st with code, state := s }

/-- The stream behind one more action, where the move behind the action may have failed. -/
def behind (st : OpcodeStream Context Op State) (late : Option DecodeError) :
    OpcodeStream Context Op State :=
  { st with late, emitted := st.emitted + 1 }

/-- The next draw runs opcodes. -/
structure Runs (st : OpcodeStream Context Op State) : Prop where
  ended : st.ended = false
  late : st.late = none
  room : st.exhausted = none

section Runs

variable {code code' : List (Nat × Op)} {s s' : State} {a : Action} {late : Option DecodeError}
  {e : DecodeError}

theorem Runs.next_of_emit (h : st.Runs)
    (hrun : Opcode.execute st.context code (Interpreter.resume st.context s) =
      (code', .emit a late s')) :
    Source.next (st.withRest code s) = (some (.ok a), (st.behind late).withRest code' s') :=
  next_eq_ok_iff.2 ⟨h.ended, h.late, h.room, code', late, s', hrun, rfl⟩

theorem Runs.toList_of_emit (h : st.Runs)
    (hrun : Opcode.execute st.context code (Interpreter.resume st.context s) =
      (code', .emit a late s')) :
    Source.toList (st.withRest code s) =
      .ok a :: Source.toList ((st.behind late).withRest code' s') :=
  Source.toList_eq_cons (h.next_of_emit hrun)

theorem Runs.toList_of_fail (h : st.Runs)
    (hrun : Opcode.execute st.context code (Interpreter.resume st.context s) =
      (code', .fail e s')) :
    Source.toList (st.withRest code s) = [.error e] := by
  have hnext : Source.next (st.withRest code s) = _ := next_of_running h.ended h.late h.room
  rw [show Opcode.execute (st.withRest code s).context (st.withRest code s).code
    (Interpreter.resume (st.withRest code s).context (st.withRest code s).state) = _ from hrun]
    at hnext
  exact toList_of_next_eq_ended hnext rfl

theorem Runs.toList_of_proceed (h : st.Runs)
    (hrun : Opcode.execute st.context code (Interpreter.resume st.context s) =
      (code', .proceed s')) :
    Source.toList (st.withRest code s) = (st.ending.map .error).toList := by
  have hnext : Source.next (st.withRest code s) = _ := next_of_running h.ended h.late h.room
  rw [show Opcode.execute (st.withRest code s).context (st.withRest code s).code
    (Interpreter.resume (st.withRest code s).context (st.withRest code s).state) = _ from hrun]
    at hnext
  exact toList_of_next_eq_ended hnext rfl

/-- A failure that was found is all that is told. -/
theorem Runs.toList_behind_some (h : st.Runs) :
    Source.toList ((st.behind (some e)).withRest code s) = [.error e] :=
  toList_of_late h.ended rfl

end Runs

/-- A stream that does not run has the same items whatever its opcodes are. -/
theorem toList_withRest_of_not_runs (h : ¬st.Runs) (code code' : List (Nat × Op)) (s s' : State) :
    Source.toList (st.withRest code s) = Source.toList (st.withRest code' s') := by
  suffices ∃ items, ∀ code s, Source.toList (st.withRest code s) = items by
    obtain ⟨items, hitems⟩ := this
    rw [hitems, hitems]
  cases hended : st.ended with
  | true => exact ⟨_, fun code s => toList_of_ended hended⟩
  | false =>
    cases hlate : st.late with
    | some e => exact ⟨_, fun code s => toList_of_late hended hlate⟩
    | none =>
      cases hroom : st.exhausted with
      | none => exact absurd ⟨hended, hlate, hroom⟩ h
      | some limit =>
        exact ⟨_, fun code s =>
          toList_of_next_eq_ended (next_of_exhausted hended hlate hroom) rfl⟩

/-- The items depend on the opcodes and on the state only by what the next draw runs. -/
theorem toList_withRest_congr {code code' : List (Nat × Op)} {s s' : State}
    (h : Opcode.execute st.context code (Interpreter.resume st.context s) =
      Opcode.execute st.context code' (Interpreter.resume st.context s')) :
    Source.toList (st.withRest code s) = Source.toList (st.withRest code' s') := by
  by_cases hruns : st.Runs
  · cases hrun : Opcode.execute st.context code (Interpreter.resume st.context s) with
    | mk rest effect =>
      have hrun' := h.symm.trans hrun
      cases effect with
      | proceed s₁ => rw [hruns.toList_of_proceed hrun, hruns.toList_of_proceed hrun']
      | emit a late s₁ => rw [hruns.toList_of_emit hrun, hruns.toList_of_emit hrun']
      | fail e s₁ => rw [hruns.toList_of_fail hrun, hruns.toList_of_fail hrun']
  · exact toList_withRest_of_not_runs hruns code code' s s'

end OpcodeStream

/-! ### Opcodes in place of each other -/

/-- If an opcode is complete, the state behind it has a property. -/
def Effect.ProceedsTo (P : State → Prop) : Effect State Action → Prop
  | .proceed s => P s
  | _ => True

namespace Opcode

/-- No opcode is suspended. -/
def Idle (c : Context) (s : State) : Prop := Interpreter.resume c s = .proceed s

/-- No opcode is suspended any more when the next one is begun. -/
structure Settles (c : Context) : Prop where
  resume : ∀ s : State, (Interpreter.resume c s).ProceedsTo (Idle c)
  act : ∀ position op (s : State), Idle c s →
    (Interpreter.act c position op s).ProceedsTo (Idle c)

variable {c : Context} {limit : Option Nat} {Inv : State → Prop} {code code' : List (Nat × Op)}

theorem Settles.execute (h : Settles c) (code : List (Nat × Op)) {effect : Effect State Action}
    (heffect : effect.ProceedsTo (Idle c)) :
    (Opcode.execute c code effect).2.ProceedsTo (Idle c) := by
  induction code generalizing effect with
  | nil => cases effect <;> exact heffect
  | cons head code ih =>
    cases effect with
    | proceed s => exact ih (h.act head.1 head.2 s heffect)
    | emit a late s => trivial
    | fail e s => trivial

/-- Nothing is run behind an opcode that fails. -/
theorem execute_fail (c : Context) (code : List (Nat × Op)) (e : DecodeError) (s : State) :
    Opcode.execute c code (.fail e s) = (code, (.fail e s : Effect State Action)) := by
  cases code <;> rfl

/-- Opcodes that make no difference in place of each other where a stream comes to them, if an
invariant holds. -/
def Interchangeable (c : Context) (limit : Option Nat) (Inv : State → Prop)
    (code code' : List (Nat × Op)) : Prop :=
  ∀ (st : OpcodeStream Context Op State) (s : State), st.context = c → st.limit = limit →
    st.ended = false → st.late = none → Idle c s → Inv s →
      Source.toList (st.withRest code s) = Source.toList (st.withRest code' s)

/-- **Opcodes in front of interchangeable ones do not matter**, as long as they keep the
invariant. -/
theorem Interchangeable.toList_eq {c : Context} (h : Interchangeable c limit Inv code code')
    (hsettles : Settles c)
    {front : List (Nat × Op)} (hfront : Opcode.Invariant c front Inv fun _ _ => True)
    (st : OpcodeStream Context Op State) (s : State) (hcontext : st.context = c)
    (hlimit : st.limit = limit) (hstate : st.late = none → Inv s) :
    Source.toList (st.withRest (front ++ code) s) =
      Source.toList (st.withRest (front ++ code') s) := by
  by_cases hruns : st.Runs
  · subst hcontext
    have hkeeps := hfront.execute (hfront.resume s (hstate hruns.late))
    have hsettled := hsettles.execute front (hsettles.resume s)
    have hsubset := execute_subset st.context front (Interpreter.resume st.context s)
    cases hrun : Opcode.execute st.context front (Interpreter.resume st.context s) with
    | mk front' effect =>
      rw [hrun] at hkeeps hsettled hsubset
      have hrun' (code : List (Nat × Op)) :
          Opcode.execute st.context (front ++ code) (Interpreter.resume st.context s) =
            Opcode.execute st.context (front' ++ code) effect := by
        rw [execute_append, hrun]
      cases effect with
      | proceed s' =>
        -- The stream comes to the interchangeable opcodes before the next action.
        cases eq_nil_of_execute_eq_proceed hrun
        have hidle : Idle st.context s' := hsettled
        have hcomes (code : List (Nat × Op)) :
            Source.toList (st.withRest (front ++ code) s) = Source.toList (st.withRest code s') := by
          apply OpcodeStream.toList_withRest_congr
          rw [hrun', show Interpreter.resume st.context s' = _ from hidle]
          rfl
        rw [hcomes, hcomes]
        exact h st s' rfl hlimit hruns.ended hruns.late hidle hkeeps
      | emit a late s' =>
        have hemit (code : List (Nat × Op)) := (hrun' code).trans (execute_emit _ _ a late s')
        have hrank := Source.rank_lt_of_next_eq (hruns.next_of_emit (hemit code))
        have hrest := Interchangeable.toList_eq h hsettles (hfront.mono hsubset) (st.behind late) s'
          rfl hlimit hkeeps.2
        rw [hruns.toList_of_emit (hemit code), hruns.toList_of_emit (hemit code'), hrest]
      | fail e s' =>
        have hfail (code : List (Nat × Op)) := (hrun' code).trans (execute_fail _ _ e s')
        rw [hruns.toList_of_fail (hfail code), hruns.toList_of_fail (hfail code')]
  · exact OpcodeStream.toList_withRest_of_not_runs hruns _ _ s s
termination_by Source.rank (st.withRest (front ++ code) s)

end Opcode

/-- **Opcodes in place of an interchangeable one leave the items of a stream as they are**, but for
positions.  They may be written with any digits, and any bytes may follow.  Where DONE is required,
something has to be left of the stream, since a stream without bytes needs no DONE. -/
theorem OpcodeStream.toList_expansion [Positioned State] [Positioned Action] {ops : OpcodeSet Op}
    {rule : DoneRule} {c : Context} {limit : Option Nat} {Inv : State → Prop} {s : State}
    (hops : ops.Portable) (hforgets : Opcode.Forgets c) (hsettles : Opcode.Settles c)
    (hs : withoutPosition s = s) (hinv : Inv s) {fs : List (Option Op)} {op : Op} {list : List Op}
    {front opcode expansion rest : Bytes} (hfront : ops.Spells fs front)
    (hdone : none ∈ fs → rule = .ignored)
    (hkeeps : Opcode.Invariant c (fs.reduceOption.map (Prod.mk 0)) Inv fun _ _ => True)
    (hop : ReadM.ReadsBack ops.read (some op) opcode)
    (hexpansion : ops.Spells (list.map some) expansion)
    (h : ∀ rest, Opcode.Interchangeable c limit Inv ((0, op) :: rest)
      (list.map (Prod.mk 0) ++ rest))
    (hempty : rule = .required → front ++ (expansion ++ rest) ≠ []) :
    (Source.toList (ofProgram c (Program.ofBytes ops rule (front ++ (opcode ++ rest))) s limit)).map
        withoutPosition =
      (Source.toList
        (ofProgram c (Program.ofBytes ops rule (front ++ (expansion ++ rest))) s limit)).map
          withoutPosition := by
  let tail : Program Op :=
    withoutPosition (Program.ofCursor ops rule ⟨0 + (front ++ opcode).length, rest⟩)
  have hcode : withoutPosition (Program.ofBytes ops rule (front ++ (opcode ++ rest))) =
      tail.behind (fs.reduceOption.map (Prod.mk 0) ++ [(0, op)]) := by
    have hboth := hfront.append (OpcodeSet.Spells.singleton hop)
    have hmem : none ∈ fs ++ [some op] → rule = .ignored := by simpa using hdone
    have happend := Program.withoutPosition_ofCursor_append hboth hmem 0 rest
    rw [List.append_assoc, List.reduceOption_append, List.map_append] at happend
    exact happend
  have hcode' : withoutPosition (Program.ofBytes ops rule (front ++ (expansion ++ rest))) =
      tail.behind (fs.reduceOption.map (Prod.mk 0) ++ list.map (Prod.mk 0)) := by
    have hboth := hfront.append hexpansion
    have hmem : none ∈ fs ++ list.map some → rule = .ignored := by simpa using hdone
    have hlist : (list.map some).reduceOption = list := by simp [List.reduceOption]
    have happend := Program.withoutPosition_ofCursor_append hboth hmem 0 rest
    have hlength := OpcodeSet.length_pos_of_readsBack hop
    have hrest := Program.withoutPosition_ofCursor hops
      ⟨0 + (front ++ opcode).length, rest⟩ (0 + (front ++ expansion).length) fun hrule hrest => by
        have hne := List.length_pos_iff.2 (hempty hrule)
        rw [show rest = [] from hrest] at hne
        simp only [List.length_append, List.length_nil] at hne ⊢
        omega
    rw [List.append_assoc, List.reduceOption_append, List.map_append, hlist, hrest] at happend
    exact happend
  have hitems := Opcode.Interchangeable.toList_eq (h tail.code) hsettles hkeeps
    (ofProgram c tail s limit) s rfl rfl fun _ => hinv
  rw [map_toList_ofProgram hforgets _ hs, map_toList_ofProgram hforgets _ hs, hcode, hcode']
  unfold ofProgram Program.behind
  rw [List.append_assoc, List.append_assoc]
  exact hitems

/-! ### Opcodes that emit -/

section Emit

variable {space : AddressSpace} {r : Registers} {delta position : Nat}

section ProceedsTo

variable {P : State → Prop} {wrap : Registers → State}

theorem Effect.ofUpdate_proceedsTo (update : Registers.Update Unit) (h : ∀ r, P (wrap r)) :
    (Effect.ofUpdate wrap update r : Effect State Action).ProceedsTo P := by
  unfold Effect.ofUpdate
  cases update r with
  | ok u r' => exact h r'
  | error e r' => trivial

theorem emitThenAdvance_proceedsTo (action : Registers → Except DecodeError Action) :
    (emitThenAdvance space wrap action delta position r).ProceedsTo P := by
  unfold emitThenAdvance
  cases action r with
  | error e => trivial
  | ok a => cases Registers.advance space delta position r <;> trivial

theorem Run.start_proceedsTo {wrap : Option Run → Registers → State}
    (action : (position : Nat) → Registers → Except DecodeError Action) (run : Run)
    (h : P (wrap none r)) : (run.start space wrap action r).ProceedsTo P := by
  unfold Run.start
  split
  · trivial
  · split
    · exact h
    · exact emitThenAdvance_proceedsTo _

end ProceedsTo

/-- An opcode that emits yields its action, and the move behind it fails or leads to what is
left. -/
theorem OpcodeStream.Runs.toList_of_emitThenAdvance {st : OpcodeStream Context Op State}
    (hruns : st.Runs) {wrap : Registers → State} {action : Registers → Except DecodeError Action}
    {code rest : List (Nat × Op)} {s : State}
    (hrun : Opcode.execute st.context code (Interpreter.resume st.context s) =
      Opcode.execute st.context rest (emitThenAdvance space wrap action delta position r)) :
    Source.toList (st.withRest code s) =
      match action r with
      | .error e => [.error e]
      | .ok a => .ok a ::
        if r.CanAdvance space delta then
          Source.toList
            ((st.behind none).withRest rest (wrap { r with offset := r.offset + delta }))
        else [.error (.slotOutOfBounds position)] := by
  unfold emitThenAdvance at hrun
  cases haction : action r with
  | error e =>
    rw [haction, Opcode.execute_fail] at hrun
    exact hruns.toList_of_fail hrun
  | ok a =>
    rw [haction] at hrun
    dsimp only at hrun ⊢
    by_cases hmove : r.CanAdvance space delta
    · rw [Registers.advance_of_canAdvance hmove, Opcode.execute_emit] at hrun
      rw [if_pos hmove]
      exact hruns.toList_of_emit hrun
    · rw [Registers.advance_of_not_canAdvance hmove, Opcode.execute_emit] at hrun
      rw [if_neg hmove, hruns.toList_of_emit hrun]
      exact congrArg _ hruns.toList_behind_some

/-- An opcode that moves fails or leads to what is left. -/
theorem OpcodeStream.Runs.toList_of_advance {st : OpcodeStream Context Op State} (hruns : st.Runs)
    {wrap : Registers → State} (hidle : ∀ r, Opcode.Idle st.context (wrap r))
    {code rest : List (Nat × Op)} {s : State}
    (hrun : Opcode.execute st.context code (Interpreter.resume st.context s) =
      Opcode.execute st.context rest
        (Effect.ofUpdate wrap (Registers.advance space delta position) r)) :
    Source.toList (st.withRest code s) =
      if r.CanAdvance space delta then
        Source.toList (st.withRest rest (wrap { r with offset := r.offset + delta }))
      else [.error (.slotOutOfBounds position)] := by
  unfold Effect.ofUpdate at hrun
  by_cases hmove : r.CanAdvance space delta
  · rw [Registers.advance_of_canAdvance hmove] at hrun
    rw [if_pos hmove]
    exact toList_withRest_congr (hrun.trans (congrArg (Opcode.execute _ rest) (hidle _).symm))
  · rw [Registers.advance_of_not_canAdvance hmove, Opcode.execute_fail] at hrun
    rw [if_neg hmove]
    exact hruns.toList_of_fail hrun

/-- A place from which two moves are possible is one from which both at once are. -/
theorem Registers.canAdvance_add_iff (d d' : Nat) :
    r.CanAdvance space (d + d') ↔ r.CanAdvance space d ∧
      CanAdvance space d' { r with offset := r.offset + d } := by
  show _ ∧ r.base space + _ ≤ _ ↔ (_ ∧ r.base space + _ ≤ _) ∧ _ ∧ r.base space + _ ≤ _
  rw [Nat.add_assoc]
  omega

/-- What a state is left with by an opcode that emits: registers, and perhaps the rest of a run,
which is gone on with by the next draw. -/
structure Run.Resumed (c : Context) (space : AddressSpace) (wrap : Option Run → Registers → State)
    (action : (position : Nat) → Registers → Except DecodeError Action) : Prop where
  idle : ∀ r, Opcode.Idle c (wrap none r)
  resume : ∀ run r, Interpreter.resume c (wrap (some run) r) = run.next space wrap action r

variable {c : Context} {st : OpcodeStream Context Op State}
  {wrap : Option Run → Registers → State}
  {action : (position : Nat) → Registers → Except DecodeError Action} {skip : Nat}

/-- An opcode that is begun in a state without a suspended one. -/
theorem Opcode.Idle.execute_cons {s : State} (h : Idle c s) (position : Nat) (op : Op)
    (rest : List (Nat × Op)) :
    Opcode.execute c ((position, op) :: rest) (Interpreter.resume c s) =
      Opcode.execute c rest (Interpreter.act c position op s) := by
  rw [show Interpreter.resume c s = _ from h]
  rfl

/-- The rest of a run is the same as so many opcodes that emit one action each. -/
theorem Run.Resumed.toList_rest {c : Context} (h : Run.Resumed c space wrap action) {one : Op}
    (hone : ∀ r, Interpreter.act c position one (wrap none r) =
      emitThenAdvance space (wrap none) (action position) (skip + space.width.pointerSize) position
        r)
    (count : Nat) (rest : List (Nat × Op)) (st : OpcodeStream Context Op State)
    (hcontext : st.context = c) (r : Registers) :
    Source.toList (st.withRest rest (wrap (some ⟨count + 1, skip, position⟩) r)) =
      Source.toList (st.withRest (List.replicate (count + 1) (position, one) ++ rest)
        (wrap none r)) := by
  subst hcontext
  by_cases hruns : st.Runs
  · have hrun : Opcode.execute st.context rest
        (Interpreter.resume st.context (wrap (some ⟨count + 1, skip, position⟩) r)) =
        Opcode.execute st.context rest (emitThenAdvance space
          (wrap (Run.tail? ⟨count + 1, skip, position⟩)) (action position)
          (skip + space.width.pointerSize) position r) := by
      rw [h.resume]
      rfl
    have hcopies := (h.idle r).execute_cons position one
      (List.replicate count (position, one) ++ rest)
    rw [hone] at hcopies
    rw [hruns.toList_of_emitThenAdvance hrun, List.replicate_succ, List.cons_append,
      hruns.toList_of_emitThenAdvance hcopies]
    cases count with
    | zero => rfl
    | succ count =>
      have htail : Run.tail? ⟨count + 1 + 1, skip, position⟩ = some ⟨count + 1, skip, position⟩ :=
        if_pos (by simp)
      have hrest := h.toList_rest hone count rest (st.behind none) rfl
      rw [htail, hrest]
  · exact OpcodeStream.toList_withRest_of_not_runs hruns _ _ _ _

/-- **An opcode that emits many actions is the same as so many opcodes that emit one.** -/
theorem Run.Resumed.toList_times (h : Run.Resumed c space wrap action) {times one : Op}
    {count : Nat}
    (hfits : skip + space.width.pointerSize < UInt64.size)
    (hone : ∀ r, Interpreter.act c position one (wrap none r) =
      emitThenAdvance space (wrap none) (action position) (skip + space.width.pointerSize) position
        r)
    (htimes : Interpreter.act c position times (wrap none r) =
      Run.start space wrap action ⟨count, skip, position⟩ r)
    (hcontext : st.context = c) (rest : List (Nat × Op)) :
    Source.toList (st.withRest ((position, times) :: rest) (wrap none r)) =
      Source.toList (st.withRest (List.replicate count (position, one) ++ rest) (wrap none r)) := by
  subst hcontext
  have hrun := (h.idle r).execute_cons position times rest
  cases count with
  | zero =>
    have hstart : Run.start space wrap action ⟨0, skip, position⟩ r = .proceed (wrap none r) :=
      Run.start_of_empty rfl hfits
    apply OpcodeStream.toList_withRest_congr
    rw [hrun, htimes, hstart, show Interpreter.resume st.context (wrap none r) = _ from h.idle r]
    rfl
  | succ count =>
    have hstart : Run.start space wrap action ⟨count + 1, skip, position⟩ r =
        Run.next space wrap action ⟨count + 1, skip, position⟩ r :=
      Run.start_of_fits (Nat.succ_ne_zero count) hfits
    rw [← h.toList_rest hone count rest st rfl r]
    apply OpcodeStream.toList_withRest_congr
    rw [hrun, htimes, hstart, h.resume]

/-- **An opcode that moves behind its action is the same as two, of which the second one moves.**
With a limit the two may differ, since the limit may come before the second one. -/
theorem OpcodeStream.toList_split {wrap : Registers → State}
    (hidle : ∀ r, Opcode.Idle c (wrap r)) {both first move : Op} {d d' : Nat}
    (hboth : Interpreter.act c position both (wrap r) =
      emitThenAdvance space wrap (action position) (d + d') position r)
    (hfirst : Interpreter.act c position first (wrap r) =
      emitThenAdvance space wrap (action position) d position r)
    (hmove : ∀ r, Interpreter.act c position move (wrap r) =
      Effect.ofUpdate wrap (Registers.advance space d' position) r)
    (hcontext : st.context = c) (hlimit : st.limit = none) (rest : List (Nat × Op)) :
    Source.toList (st.withRest ((position, both) :: rest) (wrap r)) =
      Source.toList (st.withRest ((position, first) :: (position, move) :: rest) (wrap r)) := by
  subst hcontext
  by_cases hruns : st.Runs
  · have hrun := (hidle r).execute_cons position both rest
    have hrun' := (hidle r).execute_cons position first ((position, move) :: rest)
    rw [hboth] at hrun
    rw [hfirst] at hrun'
    rw [hruns.toList_of_emitThenAdvance hrun, hruns.toList_of_emitThenAdvance hrun']
    cases action position r with
    | error e => rfl
    | ok a =>
      have hbehind : (st.behind none).Runs :=
        ⟨hruns.ended, rfl, OpcodeStream.exhausted_of_limit_eq_none hlimit⟩
      have hrest (r : Registers) := hbehind.toList_of_advance hidle
        (((hidle r).execute_cons position move rest).trans
          (congrArg (Opcode.execute st.context rest) (hmove r)))
      dsimp only
      rw [hrest]
      by_cases hd : r.CanAdvance space d
      · simp only [Registers.canAdvance_add_iff, hd, true_and, if_true, Nat.add_assoc]
      · have hboth : ¬r.CanAdvance space (d + d') :=
          fun h => hd ((Registers.canAdvance_add_iff d d').1 h).1
        rw [if_neg hboth, if_neg hd]
  · exact OpcodeStream.toList_withRest_of_not_runs hruns _ _ _ _

end Emit

end MachO
