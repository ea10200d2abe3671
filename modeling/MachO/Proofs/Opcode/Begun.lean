import MachO.Proofs.Opcode.Invariant

/-!
# The opcodes that a stream begins

A stream may come to its end, or fail, before all opcodes of its program were run.

* `Opcode.begun`, `OpcodeStream.begun`: the opcodes that are begun, up to the next action and while
  all items are drawn;
* `OpcodeStream.begun_isPrefix`: they are the first ones of the program;
* `Opcode.Alike`: two contexts in which some opcodes do the same;
* `OpcodeStream.toList_congr_of_begun`: a stream that begins no others has the same items in both.
-/

namespace MachO

variable {Context Op State Action : Type} [Interpreter Context Op State Action]

/-! ### Opcodes up to the next action -/

/-- The opcodes that are begun after an effect, up to the first that emits or fails. -/
def Opcode.begun (c : Context) : List (Nat × Op) → Effect State Action → List (Nat × Op)
  | (position, op) :: code, .proceed s =>
    (position, op) :: begun c code (Interpreter.act c position op s)
  | _, _ => []

/-- The opcodes that are begun stand in front of those that are left. -/
theorem Opcode.begun_append (c : Context) (code : List (Nat × Op)) (effect : Effect State Action) :
    begun c code effect ++ (execute c code effect).1 = code := by
  induction code generalizing effect with
  | nil => cases effect <;> rfl
  | cons head code ih =>
    cases effect with
    | proceed s => exact congrArg (head :: ·) (ih _)
    | emit a late s => rfl
    | fail e s => rfl

namespace OpcodeStream

/-- The opcodes that the next draw begins. -/
def begunNext (s : OpcodeStream Context Op State) : List (Nat × Op) :=
  if s.ended ∨ s.late.isSome ∨ s.exhausted.isSome then []
  else Opcode.begun s.context s.code (Interpreter.resume s.context s.state)

theorem begunNext_append (s : OpcodeStream Context Op State) :
    s.begunNext ++ (next s).2.code = s.code := by
  unfold begunNext next
  by_cases hended : s.ended = true
  · simp [hended]
  cases hlate : s.late with
  | some e => simp [hended]
  | none =>
    cases hroom : s.exhausted with
    | some limit => simp [hended]
    | none =>
      have happend := Opcode.begun_append s.context s.code
        (Interpreter.resume s.context s.state)
      simp only [hended, Option.isSome_none, Bool.false_eq_true, or_self, if_false]
      cases hrun : Opcode.execute s.context s.code (Interpreter.resume s.context s.state) with
      | mk code effect =>
        rw [hrun] at happend
        cases effect <;> exact happend

/-- The opcodes that are begun while all items are drawn. -/
def begun (s : OpcodeStream Context Op State) : List (Nat × Op) :=
  match _h : Source.next s with
  | (none, _) => s.begunNext
  | (some _, s') => s.begunNext ++ begun s'
termination_by Source.rank s
decreasing_by exact Source.rank_lt_of_next_eq _h

theorem begun_of_some {s s' : OpcodeStream Context Op State} {item : Except DecodeError Action}
    (h : Source.next s = (some item, s')) : s.begun = s.begunNext ++ s'.begun := by
  rw [begun]
  split <;> rename_i hnext <;> cases h.symm.trans hnext
  rfl

theorem begun_of_none {s s' : OpcodeStream Context Op State} (h : Source.next s = (none, s')) :
    s.begun = s.begunNext := by
  rw [begun]
  split <;> rename_i hnext <;> cases h.symm.trans hnext
  rfl

/-- Opcodes are begun in the order of the program, and none is left out. -/
theorem begun_isPrefix (s : OpcodeStream Context Op State) : s.begun <+: s.code := by
  have happend := begunNext_append s
  cases hnext : Source.next s with
  | mk item s' =>
    have hcode : (next s).2.code = s'.code := congrArg (fun draw => draw.2.code) hnext
    rw [hcode] at happend
    cases item with
    | none =>
      rw [begun_of_none hnext]
      exact ⟨_, happend⟩
    | some item =>
      rw [begun_of_some hnext, ← happend, List.prefix_append_right_inj]
      exact begun_isPrefix s'
termination_by Source.rank s
decreasing_by exact Source.rank_lt_of_next_eq hnext

end OpcodeStream

/-! ### Two contexts -/

/-- In two contexts the opcodes of a kind do the same, as long as the state has an invariant, which
they keep; and so does what they leave suspended. -/
structure Opcode.Alike (c c' : Context) (Inv : State → Prop) (Kind : Op → Prop) : Prop where
  resume : ∀ s, Inv s → Interpreter.resume c' s = Interpreter.resume c s ∧
    (Interpreter.resume c s).Keeps Inv fun _ _ => True
  act : ∀ position op s, Kind op → Inv s →
    Interpreter.act c' position op s = Interpreter.act c position op s ∧
      (Interpreter.act c position op s).Keeps Inv fun _ _ => True

variable {c c' : Context} {Inv : State → Prop} {Kind : Op → Prop}

theorem Opcode.Alike.execute (h : Alike c c' Inv Kind) {code : List (Nat × Op)}
    {effect : Effect State Action} (heffect : effect.Keeps Inv fun _ _ => True)
    (hbegun : ∀ x ∈ begun c code effect, Kind x.2) :
    Opcode.execute c' code effect = Opcode.execute c code effect ∧
      (Opcode.execute c code effect).2.Keeps Inv fun _ _ => True := by
  induction code generalizing effect with
  | nil => cases effect <;> exact ⟨rfl, heffect⟩
  | cons head code ih =>
    cases effect with
    | proceed s =>
      obtain ⟨position, op⟩ := head
      obtain ⟨hop, hrest⟩ := List.forall_mem_cons.1 hbegun
      obtain ⟨hact, hkeeps⟩ := h.act position op s hop heffect
      obtain ⟨hrun, hend⟩ := ih hkeeps hrest
      refine ⟨?_, hend⟩
      show Opcode.execute c' code (Interpreter.act c' position op s) = _
      rw [hact, hrun]
      rfl
    | emit a late s => exact ⟨rfl, heffect⟩
    | fail e s => exact ⟨rfl, heffect⟩

namespace OpcodeStream

/-- The stream in another context. -/
def inContext (s : OpcodeStream Context Op State) (c : Context) : OpcodeStream Context Op State :=
  { s with context := c }

/-- Only the opcodes that a draw begins, and what is suspended, depend on the context. -/
theorem next_inContext {s : OpcodeStream Context Op State}
    (h : s.ended = false → s.late = none → s.exhausted = none →
      Opcode.execute c s.code (Interpreter.resume c s.state) =
        Opcode.execute s.context s.code (Interpreter.resume s.context s.state)) :
    Source.next (s.inContext c) = ((Source.next s).1, (Source.next s).2.inContext c) := by
  cases hended : s.ended with
  | true =>
    rw [next_of_ended hended]
    exact next_of_ended (show (s.inContext c).ended = true from hended)
  | false =>
    cases hlate : s.late with
    | some e =>
      rw [next_of_late hended hlate]
      exact next_of_late (show (s.inContext c).ended = false from hended) hlate
    | none =>
      cases hroom : s.exhausted with
      | some limit =>
        rw [next_of_exhausted hended hlate hroom]
        exact next_of_exhausted (show (s.inContext c).ended = false from hended) hlate hroom
      | none =>
        have hother : Source.next (s.inContext c) = _ := next_of_running hended hlate hroom
        have hrun : Opcode.execute (s.inContext c).context (s.inContext c).code
            (Interpreter.resume (s.inContext c).context (s.inContext c).state) = _ :=
          h hended hlate hroom
        rw [hother, hrun, next_of_running hended hlate hroom]
        cases Opcode.execute s.context s.code (Interpreter.resume s.context s.state) with
        | mk code effect => cases effect <;> rfl

/-- **Opcodes that are not begun do not matter**: a stream that begins only opcodes which do the same
in two contexts has the same items in both. -/
theorem toList_congr_of_begun (s : OpcodeStream Context Op State)
    (h : Opcode.Alike s.context c Inv Kind) (hstate : s.late = none → Inv s.state)
    (hbegun : ∀ x ∈ s.begun, Kind x.2) :
    Source.toList (s.inContext c) = Source.toList s := by
  have hrun (hended : s.ended = false) (hlate : s.late = none) (hroom : s.exhausted = none) :
      Opcode.execute c s.code (Interpreter.resume c s.state) =
          Opcode.execute s.context s.code (Interpreter.resume s.context s.state) ∧
        (Opcode.execute s.context s.code (Interpreter.resume s.context s.state)).2.Keeps Inv
          fun _ _ => True := by
    obtain ⟨hresume, hkeeps⟩ := h.resume s.state (hstate hlate)
    rw [hresume]
    refine h.execute hkeeps fun x hx => hbegun x ?_
    have hnext : x ∈ s.begunNext := by
      rw [begunNext, if_neg (by simp [hended, hlate, hroom])]
      exact hx
    cases hdraw : Source.next s with
    | mk item s' =>
      cases item with
      | none => rwa [begun_of_none hdraw]
      | some item =>
        rw [begun_of_some hdraw]
        exact List.mem_append_left _ hnext
  have hdraw := next_inContext fun hended hlate hroom => (hrun hended hlate hroom).1
  cases hnext : Source.next s with
  | mk item s' =>
    rw [hnext] at hdraw
    match item with
    | none => rw [Source.toList_eq_nil hnext, Source.toList_eq_nil hdraw]
    | some (.error e) =>
      have hended : s'.ended = true := ended_of_next_eq_error hnext
      rw [toList_of_next_eq_ended hnext hended, toList_of_next_eq_ended hdraw hended]
    | some (.ok a) =>
      -- The invariant holds behind the action, so the rest of the stream is alike as well.
      obtain ⟨hended, hlate, hroom, code, late, state, hfound, rfl⟩ := next_eq_ok_iff.1 hnext
      have hkeeps := (hrun hended hlate hroom).2
      rw [hfound] at hkeeps
      rw [Source.toList_eq_cons hnext, Source.toList_eq_cons hdraw]
      congr 1
      refine toList_congr_of_begun _ h hkeeps.2 fun x hx => hbegun x ?_
      rw [begun_of_some hnext]
      exact List.mem_append_right _ hx
termination_by Source.rank s
decreasing_by exact Source.rank_lt_of_next_eq hnext

end OpcodeStream

end MachO
