import MachO.Opcode.Stream
import MachO.Proofs.Opcode.Outcome
import MachO.Proofs.Opcode.Portable

/-!
# More opcodes behind a stream

* `ReadM.Extends`: a reader that succeeds does not look at what follows;
* `Program.code_isPrefix`: bytes that follow only add opcodes;
* `OpcodeStream.values_isPrefix`: opcodes that follow only add actions.
-/

namespace MachO

/-! ### Readers -/

/-- The cursor, with further bytes behind those that are left. -/
def Cursor.followedBy (c : Cursor) (more : Bytes) : Cursor := ⟨c.pos, c.rest ++ more⟩

theorem Cursor.followedBy_of_take (data : Bytes) (count : Nat) :
    (Cursor.of (data.take count) 0).followedBy (data.drop count) = Cursor.of data 0 := by
  simp [followedBy, Cursor.of]

/-- A success remains the same when further bytes follow. -/
def ReadM.Extends {α : Type} (r : ReadM α) : Prop :=
  ∀ ⦃c a c'⦄, r c = .ok a c' → ∀ more, r (c.followedBy more) = .ok a (c'.followedBy more)

theorem OpcodeSet.Portable.extends {Op : Type} {ops : OpcodeSet Op} (h : ops.Portable) :
    ops.read.Extends := by
  intro c op? c' hread more
  obtain ⟨bs, hrest, hpos, hback⟩ := h.of_ok hread
  have hmore := hback c.pos (c'.rest ++ more)
  rwa [← List.append_assoc, ← hrest, ← hpos] at hmore

/-! ### Programs -/

namespace Program

variable {Op : Type} {ops : OpcodeSet Op} {rule : DoneRule} {c c' : Cursor}

theorem ofCursor_of_done (hend : ¬c.atEnd) (hread : ops.read c = .ok none c') :
    ofCursor ops rule c =
      if rule = .ignored then ofCursor ops rule c' else ⟨[], done rule c'⟩ := by
  rw [ofCursor, if_neg hend]
  split <;> rename_i h <;> cases hread.symm.trans h
  rfl

theorem ofCursor_of_op (hend : ¬c.atEnd) {op : Op} (hread : ops.read c = .ok (some op) c') :
    ofCursor ops rule c =
      ⟨(c.pos, op) :: (ofCursor ops rule c').code, (ofCursor ops rule c').ending⟩ := by
  rw [ofCursor, if_neg hend]
  split <;> rename_i h <;> cases hread.symm.trans h
  rfl

theorem atEnd_followedBy (hend : ¬c.atEnd) (more : Bytes) : ¬(c.followedBy more).atEnd := by
  simp_all [Cursor.atEnd, Cursor.followedBy]

/-- The opcodes of some bytes are the first ones when further bytes follow. -/
theorem code_ofCursor_isPrefix (hops : ops.read.Extends) (rule : DoneRule) (c : Cursor)
    (more : Bytes) :
    (ofCursor ops rule c).code <+: (ofCursor ops rule (c.followedBy more)).code := by
  fun_induction ofCursor ops rule c with
  | case1 c hend => exact List.nil_prefix
  | case2 c hend e c' hread => exact List.nil_prefix
  | case3 c hend c' hread hrule _ ih =>
    rw [ofCursor_of_done (atEnd_followedBy hend more) (hops hread more), if_pos hrule]
    exact ih
  | case4 c hend c' hread hrule => exact List.nil_prefix
  | case5 c hend op c' hread _ rest ih =>
    rw [ofCursor_of_op (atEnd_followedBy hend more) (hops hread more)]
    exact List.cons_prefix_cons.2 ⟨rfl, ih⟩

/-- **Truncation only takes opcodes away from the end.** -/
theorem code_isPrefix (hops : ops.read.Extends) (rule : DoneRule) (bytes : Bytes) (count : Nat) :
    (ofBytes ops rule (bytes.take count)).code <+: (ofBytes ops rule bytes).code := by
  unfold ofBytes
  rw [← Cursor.followedBy_of_take bytes count]
  exact code_ofCursor_isPrefix hops rule _ _

end Program

/-! ### Streams -/

variable {Context Op State Action : Type} [Interpreter Context Op State Action]

/-- Opcodes that follow are run behind the others. -/
theorem Opcode.execute_append (c : Context) (code more : List (Nat × Op))
    (effect : Effect State Action) :
    execute c (code ++ more) effect =
      execute c ((execute c code effect).1 ++ more) (execute c code effect).2 := by
  induction code generalizing effect with
  | nil => cases effect <;> rfl
  | cons head code ih =>
    cases effect with
    | proceed s => exact ih _
    | emit a late s => rfl
    | fail e s => rfl

/-- Nothing is run behind an opcode that emits. -/
theorem Opcode.execute_emit (c : Context) (code : List (Nat × Op)) (a : Action)
    (late : Option DecodeError) (s : State) :
    execute c code (.emit a late s) = (code, .emit a late s) := by
  cases code <;> rfl

namespace OpcodeStream

/-- The stream, with further opcodes behind those that were not begun. -/
def followedBy (st : OpcodeStream Context Op State) (more : List (Nat × Op))
    (ending : Option DecodeError) : OpcodeStream Context Op State :=
  { st with code := st.code ++ more, ending }

theorem values_of_ended {st : OpcodeStream Context Op State} (h : st.ended = true) :
    Source.values st = [] := by
  rw [Source.values, toList_of_ended h, List.filterMap_nil]

/-- Opcodes that follow make no difference to a draw that finds an action. -/
theorem next_followedBy {st st' : OpcodeStream Context Op State} {a : Action}
    (hnext : Source.next st = (some (.ok a), st')) (more : List (Nat × Op))
    (ending : Option DecodeError) :
    Source.next (st.followedBy more ending) = (some (.ok a), st'.followedBy more ending) := by
  obtain ⟨hended, hlate, hroom, code, late, state, hrun, rfl⟩ := next_eq_ok_iff.1 hnext
  refine next_eq_ok_iff.2 ⟨hended, hlate, hroom, code ++ more, late, state, ?_, rfl⟩
  show Opcode.execute st.context (st.code ++ more) (Interpreter.resume st.context st.state) = _
  rw [Opcode.execute_append, hrun, Opcode.execute_emit]

/-- **Opcodes that follow only add actions**, after those of the stream without them. -/
theorem values_isPrefix (st : OpcodeStream Context Op State) (more : List (Nat × Op))
    (ending : Option DecodeError) :
    Source.values st <+: Source.values (st.followedBy more ending) := by
  cases hnext : Source.next st with
  | mk item st' =>
    match item with
    | none =>
      rw [Source.values_eq_nil hnext]
      exact List.nil_prefix
    | some (.error e) =>
      rw [Source.values_of_error hnext, values_of_ended (ended_of_next_eq_error hnext)]
      exact List.nil_prefix
    | some (.ok a) =>
      rw [Source.values_eq_cons hnext, Source.values_eq_cons (next_followedBy hnext more ending)]
      exact List.cons_prefix_cons.2 ⟨rfl, values_isPrefix st' more ending⟩
termination_by Source.rank st
decreasing_by exact Source.rank_lt_of_next_eq hnext

/-- A stream of which some of the first opcodes are run yields some of the first actions. -/
theorem values_ofProgram_isPrefix (context : Context) {p q : Program Op}
    (h : p.code <+: q.code) (state : State) (limit : Option Nat) :
    Source.values (ofProgram context p state limit) <+:
      Source.values (ofProgram context q state limit) := by
  obtain ⟨more, hcode⟩ := h
  have hq : ofProgram context q state limit =
      (ofProgram context p state limit).followedBy more q.ending := by
    simp [ofProgram, followedBy, hcode]
  rw [hq]
  exact values_isPrefix _ more q.ending

end OpcodeStream

end MachO
