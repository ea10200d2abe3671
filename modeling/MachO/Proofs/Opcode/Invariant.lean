import MachO.Opcode.Emit
import MachO.Proofs.Opcode.Outcome
import MachO.Proofs.Reading

/-!
# Invariants of opcode streams

* `Effect.Keeps`: an effect leaves a state with an invariant, and its action has a property;
* `Opcode.Invariant`: all opcodes of a program and all suspended ones do so;
* `OpcodeStream.forall_ok_mem_toList`: then every action of the stream has the property;
* `emitThenAdvance_keeps`, `Run.start_keeps`: opcodes that emit;
* `Program.exists_read_of_mem`: where the opcodes of a program come from.
-/

namespace MachO

variable {Context Op State Action : Type}

/-- The state after an effect has an invariant, unless the stream fails next, and the action that is
emitted has a property together with the failure behind it. -/
def Effect.Keeps (Inv : State → Prop) (Good : Action → Option DecodeError → Prop) :
    Effect State Action → Prop
  | .proceed s => Inv s
  | .emit a late s => Good a late ∧ (late = none → Inv s)
  | .fail _ _ => True

theorem Effect.keeps_true (effect : Effect State Action) :
    effect.Keeps (fun _ => True) fun _ _ => True := by
  cases effect with
  | proceed s => trivial
  | emit a late s => exact ⟨trivial, fun _ => trivial⟩
  | fail e s => trivial

/-! ### Runs of a program -/

section Interpreter

variable [Interpreter Context Op State Action] {c : Context} {Inv : State → Prop}
  {Good : Action → Option DecodeError → Prop}

/-- Every opcode of a program and everything that is suspended keeps an invariant and emits only
actions with a property. -/
structure Opcode.Invariant (c : Context) (code : List (Nat × Op)) (Inv : State → Prop)
    (Good : Action → Option DecodeError → Prop) : Prop where
  resume : ∀ s, Inv s → (Interpreter.resume c s).Keeps Inv Good
  act : ∀ position op, (position, op) ∈ code → ∀ s, Inv s →
    (Interpreter.act c position op s).Keeps Inv Good

theorem Opcode.invariant_true (c : Context) (code : List (Nat × Op)) :
    Opcode.Invariant c code (fun _ : State => True) fun (_ : Action) _ => True where
  resume _ _ := Effect.keeps_true _
  act _ _ _ _ _ := Effect.keeps_true _

/-- An invariant of a program is one of what is left of it. -/
theorem Opcode.Invariant.mono {code code' : List (Nat × Op)}
    (h : Opcode.Invariant c code Inv Good) (hcode : code' ⊆ code) :
    Opcode.Invariant c code' Inv Good where
  resume := h.resume
  act position op hop := h.act position op (hcode hop)

theorem Opcode.execute_subset (c : Context) (code : List (Nat × Op))
    (effect : Effect State Action) : (execute c code effect).1 ⊆ code := by
  induction code generalizing effect with
  | nil => cases effect <;> exact List.Subset.refl _
  | cons head code ih =>
    cases effect with
    | proceed s => exact List.Subset.trans (ih _) (List.subset_cons_self _ _)
    | emit a late s => exact List.Subset.refl _
    | fail e s => exact List.Subset.refl _

theorem Opcode.Invariant.execute {code : List (Nat × Op)}
    (h : Opcode.Invariant c code Inv Good) {effect : Effect State Action}
    (heffect : effect.Keeps Inv Good) : (Opcode.execute c code effect).2.Keeps Inv Good := by
  induction code generalizing effect with
  | nil => cases effect <;> exact heffect
  | cons head code ih =>
    cases effect with
    | proceed s =>
      exact ih (h.mono (List.subset_cons_self _ _))
        (h.act _ _ List.mem_cons_self s heffect)
    | emit a late s => exact heffect
    | fail e s => exact heffect

namespace OpcodeStream

variable {st st' : OpcodeStream Context Op State}

/-- **One draw keeps the invariant**: its action has the property, and the invariant holds behind it
unless a failure was already found. -/
theorem next_keeps (h : Opcode.Invariant c st.code Inv Good) (hc : st.context = c)
    (hstate : st.late = none → Inv st.state) {a : Action} (hnext : next st = (some (.ok a), st')) :
    Good a st'.late ∧ st'.context = c ∧ Opcode.Invariant c st'.code Inv Good ∧
      (st'.late = none → Inv st'.state) := by
  subst hc
  obtain ⟨-, hlate, -, code, late, s, hrun, rfl⟩ := next_eq_ok_iff.1 hnext
  have hkeeps := h.execute (h.resume st.state (hstate hlate))
  have hsubset := Opcode.execute_subset st.context st.code
    (Interpreter.resume st.context st.state)
  rw [hrun] at hkeeps hsubset
  exact ⟨hkeeps.1, rfl, h.mono hsubset, hkeeps.2⟩

/-- **Every action of a run has the property**, together with the failure that is told behind it. -/
theorem good_of_getElem?_values (st : OpcodeStream Context Op State)
    (h : Opcode.Invariant st.context st.code Inv Good) (hstate : st.late = none → Inv st.state)
    {n : Nat} {a : Action} (ha : (Source.values st)[n]? = some a) :
    Good a (Source.drop (n + 1) st).late := by
  have hpos : 0 < (Source.values st).length :=
    Nat.lt_of_le_of_lt (Nat.zero_le n) (List.getElem?_eq_some_iff.1 ha).1
  induction n generalizing st with
  | zero =>
    obtain ⟨a', st', hnext, hvalues⟩ := Source.exists_next_of_length_pos hpos
    rw [hvalues] at ha
    cases ha
    rw [Source.drop_succ, Source.drop_zero, hnext]
    exact (next_keeps h rfl hstate hnext).1
  | succ n ih =>
    obtain ⟨a', st', hnext, hvalues⟩ := Source.exists_next_of_length_pos hpos
    obtain ⟨-, hc, h', hstate'⟩ := next_keeps h rfl hstate hnext
    rw [hvalues, List.getElem?_cons_succ] at ha
    rw [Source.drop_succ, hnext]
    exact ih st' (hc ▸ h') hstate' ha
      (Nat.lt_of_le_of_lt (Nat.zero_le n) (List.getElem?_eq_some_iff.1 ha).1)

/-- Every action of a run has a property that does not depend on what is told behind it. -/
theorem forall_ok_mem_toList {Good : Action → Prop} (st : OpcodeStream Context Op State)
    (h : Opcode.Invariant st.context st.code Inv fun a _ => Good a)
    (hstate : st.late = none → Inv st.state) : ∀ a, .ok a ∈ Source.toList st → Good a := by
  intro a ha
  obtain ⟨n, hn⟩ := List.mem_iff_getElem?.1 (Source.mem_values_iff.2 ha)
  exact good_of_getElem?_values st h hstate hn

end OpcodeStream

end Interpreter

/-! ### Opcodes that emit -/

variable {space : AddressSpace} {Inv : State → Prop} {Good : Action → Option DecodeError → Prop}

theorem Effect.ofUpdate_keeps {wrap : Registers → State} {update : Registers.Update Unit}
    {r : Registers} (h : ∀ u r', update r = .ok u r' → Inv (wrap r')) :
    (Effect.ofUpdate wrap update r : Effect State Action).Keeps Inv Good := by
  unfold Effect.ofUpdate
  cases hupdate : update r with
  | ok u r' => exact h u r' hupdate
  | error e r' => trivial

theorem emitThenAdvance_keeps {wrap : Registers → State}
    {action : Registers → Except DecodeError Action} {delta position : Nat} {r : Registers}
    (hgood : ∀ a, action r = .ok a → Good a (r.moveFailure? space delta position))
    (hinv : ∀ u r', Registers.advance space delta position r = .ok u r' → Inv (wrap r')) :
    (emitThenAdvance space wrap action delta position r).Keeps Inv Good := by
  unfold emitThenAdvance
  cases haction : action r with
  | error e => trivial
  | ok a =>
    have hgood := hgood a haction
    cases hadvance : Registers.advance space delta position r with
    | ok u r' =>
      rw [Registers.moveFailure?_of_ok hadvance] at hgood
      exact ⟨hgood, fun _ => hinv u r' hadvance⟩
    | error e r' =>
      rw [Registers.moveFailure?_of_error hadvance] at hgood
      exact ⟨hgood, nofun⟩

theorem Run.tail?_position {run run' : Run} (h : run.tail? = some run') :
    run'.position = run.position := by
  unfold Run.tail? at h
  split at h
  · cases h
    rfl
  · cases h

theorem Run.next_keeps {wrap : Option Run → Registers → State}
    {action : (position : Nat) → Registers → Except DecodeError Action} {run : Run}
    {r : Registers} (hgood : ∀ a, action run.position r = .ok a →
      Good a (r.moveFailure? space (run.stride space) run.position))
    (hinv : ∀ delta u r', Registers.advance space delta run.position r = .ok u r' →
      Inv (wrap run.tail? r')) :
    (run.next space wrap action r).Keeps Inv Good :=
  emitThenAdvance_keeps hgood (hinv _)

theorem Run.start_keeps {wrap : Option Run → Registers → State}
    {action : (position : Nat) → Registers → Except DecodeError Action} {run : Run}
    {r : Registers} (hgood : run.remaining ≠ 0 → ∀ a, action run.position r = .ok a →
      Good a (r.moveFailure? space (run.stride space) run.position))
    (hinv : run.remaining ≠ 0 → ∀ delta u r',
      Registers.advance space delta run.position r = .ok u r' → Inv (wrap run.tail? r'))
    (hnone : Inv (wrap none r)) : (run.start space wrap action r).Keeps Inv Good := by
  unfold Run.start
  split
  · trivial
  · split
    · exact hnone
    · rename_i hremaining
      exact Run.next_keeps (hgood hremaining) (hinv hremaining)

/-! ### The opcodes of a program -/

theorem Program.exists_read_of_mem_ofCursor {ops : OpcodeSet Op} {rule : DoneRule} {bytes : Bytes}
    {position : Nat} {op : Op} (c : Cursor) (hc : c = Cursor.of bytes c.pos)
    (h : (position, op) ∈ (Program.ofCursor ops rule c).code) :
    ∃ c', ops.read (Cursor.of bytes position) = .ok (some op) c' := by
  -- Readers only move forward, so the cursor stays one of the same bytes.
  have hnext {c c' : Cursor} {op? : Option Op} (hc : c = Cursor.of bytes c.pos)
      (hread : ops.read c = .ok op? c') : c' = Cursor.of bytes c'.pos := by
    obtain ⟨count, -, -, rfl⟩ := ops.moves_read hread
    rw [hc, Cursor.of_skip]
    rfl
  fun_induction Program.ofCursor ops rule c with
  | case1 c hend => cases h
  | case2 c hend e c' hread => cases h
  | case3 c hend c' hread hrule _ ih => exact ih (hnext hc hread) h
  | case4 c hend c' hread hrule => cases h
  | case5 c hend first c' hread _ rest ih =>
    rcases List.mem_cons.1 h with heq | h
    · cases heq
      rw [← hc]
      exact ⟨c', hread⟩
    · exact ih (hnext hc hread) h

/-- Every opcode of a program is read from its bytes, at its position. -/
theorem Program.exists_read_of_mem {ops : OpcodeSet Op} {rule : DoneRule} {bytes : Bytes}
    {position : Nat} {op : Op} (h : (position, op) ∈ (Program.ofBytes ops rule bytes).code) :
    ∃ c, ops.read (Cursor.of bytes position) = .ok (some op) c :=
  exists_read_of_mem_ofCursor (Cursor.of bytes 0) rfl h

/-- No two opcodes of a program have one position. -/
theorem Program.eq_of_mem {ops : OpcodeSet Op} {rule : DoneRule} {bytes : Bytes} {position : Nat}
    {op op' : Op} (h : (position, op) ∈ (Program.ofBytes ops rule bytes).code)
    (h' : (position, op') ∈ (Program.ofBytes ops rule bytes).code) : op = op' := by
  obtain ⟨c, hread⟩ := exists_read_of_mem h
  obtain ⟨c', hread'⟩ := exists_read_of_mem h'
  cases hread.symm.trans hread'
  rfl

/-- The byte at a position holds one of some opcodes, in its high four bits. -/
def Bytes.HoldsOpcode (bytes : Bytes) (position : Nat) (opcodes : List Nat) : Prop :=
  ∃ byte, bytes[position]? = some byte ∧ byte.toNat / 16 ∈ opcodes

/-- The operands of an opcode are read behind its byte. -/
theorem ReadM.operands_of_read {α : Type} {operands : (position : Nat) → UInt8 → ReadM α}
    {bytes : Bytes} {position : Nat} {a : α} {c : Cursor}
    (h : (do
      let position ← ReadM.position
      let byte ← ReadM.u8
      operands position byte) (Cursor.of bytes position) = .ok a c) :
    ∃ byte c₁, bytes[position]? = some byte ∧ operands position byte c₁ = .ok a c := by
  obtain ⟨_, _, hposition, h⟩ := bind_eq_ok_iff.1 h
  cases hposition
  obtain ⟨byte, c₁, hbyte, h⟩ := bind_eq_ok_iff.1 h
  obtain ⟨_, rfl, hrest, -⟩ := (reads_u8 _ _ _).1 hbyte
  refine ⟨byte, c₁, ?_, h⟩
  have hrest : bytes.drop position = byte :: c₁.rest := hrest
  rw [← Nat.add_zero position, ← List.getElem?_drop, hrest]
  rfl

/-- What bind opcodes tell apart from the place that is written. -/
structure Registers.SameSettings (r r' : Registers) : Prop where
  ordinal : r'.ordinal = r.ordinal
  symbol : r'.symbol = r.symbol
  kind : r'.kind = r.kind

theorem Registers.writeKind_eq_ok_iff {r : Registers} {position : Nat} {kind : WriteKind} :
    r.writeKind position = .ok kind ↔ r.kind = some kind := by
  unfold writeKind
  cases r.kind <;> simp

theorem Registers.sameSettings_of_advance {delta position : Nat} {r r' : Registers} {u : Unit}
    (h : advance space delta position r = .ok u r') : r.SameSettings r' := by
  obtain ⟨-, -, rfl⟩ := advance_eq_ok_iff.1 h
  exact ⟨rfl, rfl, rfl⟩

theorem Registers.sameSettings_of_setSegment {index : UInt8} {offset position : Nat}
    {r r' : Registers} {u : Unit} (h : setSegment space index offset position r = .ok u r') :
    r.SameSettings r' := by
  rcases Nat.lt_or_ge index.toNat space.segments.length with hlt | hle
  · rw [setSegment_of_lt hlt] at h
    obtain ⟨hordinal, hsymbol, hkind⟩ := sameSettings_of_advance h
    exact ⟨hordinal, hsymbol, hkind⟩
  · rw [setSegment_of_le hle] at h
    cases h

end MachO
