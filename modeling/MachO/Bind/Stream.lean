import MachO.Bind.Chain
import MachO.Bind.Op

/-!
# Bind streams

* `Bind.StreamKind`: the three bind streams of an image;
* `Bind.act`, `Bind.resume`: the meaning of the opcodes;
* `Bind.stream`: the actions of an opcode stream, drawn one by one.
-/

namespace MachO.Bind

/-- The bind streams of an image. -/
inductive StreamKind
  | normal
  /-- Bound at the first call. -/
  | lazy
  /-- Bound to the first definition in any library. -/
  | weak
  deriving DecidableEq, Repr

/-- What DONE does in a bind stream.  In a lazy stream it separates the symbols. -/
def StreamKind.doneRule : StreamKind → DoneRule
  | .normal | .weak => .required
  | .lazy => .ignored

/-- The registers before the first opcode. -/
def StreamKind.registers : StreamKind → Registers
  | .normal => Registers.initial
  | .lazy => { Registers.initial with kind := some .pointer }
  | .weak => { Registers.initial with ordinal := some (-3) }

/-- The action at the current slot. -/
def actionAt (space : AddressSpace) (position : Nat) (r : Registers) :
    Except DecodeError Action := do
  let some ordinal := r.ordinal | throw (.noOrdinal position)
  let (segment, address) ← r.target space position
  let kind ← r.writeKind position
  let some symbol := r.symbol | throw (.noSymbol position)
  return {
    segment, offset := r.offset, address, symbol, ordinal, kind, addend := r.addend
    flags := r.symbolFlags, position }

/-- The symbol of the registers, as it is kept in the table. -/
def entryAt (position : Nat) (r : Registers) : Except DecodeError Entry := do
  let some symbol := r.symbol | throw (.noSymbol position)
  let some ordinal := r.ordinal | throw (.noOrdinal position)
  return { symbol, ordinal, flags := r.symbolFlags, addend := r.addend }

/-- The state with other registers, and with what is left of a run. -/
def State.of (s : State) (run : Option Run) (r : Registers) : State :=
  { s with registers := r, pending := run.elim .nothing .run }

/-- What the opcode at a position does.  Once a table was begun, the opcode that emits at one slot
adds the current symbol to the table instead. -/
def act (c : Context) (position : Nat) (op : Op) (s : State) : Effect State Action :=
  let r := s.registers
  let set := fun r => Effect.proceed { s with registers := r }
  let update := fun u => Effect.ofUpdate (s.of none) u r
  let emit := fun delta => emitThenAdvance c.space (s.of none) (actionAt c.space position) delta position r
  let slot := c.space.width.pointerSize
  match op with
  | .setOrdinal ordinal => set { r with ordinal := some ordinal }
  | .setSymbol symbol flags => set { r with symbol := some symbol, symbolFlags := flags }
  | .setKind kind => set { r with kind := some kind }
  | .setAddend addend => set { r with addend }
  | .setSegment index offset => update (Registers.setSegment c.space index offset position)
  | .advance delta => update (Registers.advance c.space delta position)
  | .emit =>
    match s.table with
    | none => emit slot
    | some table =>
      match entryAt position r with
      | .ok entry => .proceed { s with table := some (table.push entry) }
      | .error e => .fail e s
  | .emitThenAdvance delta => emit (delta + slot)
  | .emitThenAdvanceScaled count => emit (count * slot + slot)
  | .emitTimesSkipping count skip =>
    Run.start c.space s.of (actionAt c.space) ⟨count, skip, position⟩ r
  | .startTable _ => .proceed { s with table := some #[] }
  | .followChain => c.follow position { s with pending := .chain position }

/-- Goes on with a suspended opcode. -/
def resume (c : Context) (s : State) : Effect State Action :=
  match s.pending with
  | .nothing => .proceed s
  | .run run => run.next c.space s.of (actionAt c.space) s.registers
  | .chain position => c.follow position s

/-- One if an opcode is suspended. -/
def Pending.weight : Pending → Nat
  | .nothing => 0
  | _ => 1

/-- The addresses that are left to a suspended opcode. -/
def weight (c : Context) (s : State) : Nat :=
  c.space.width.span - s.registers.offset + s.pending.weight

theorem pending_weight_le (p : Pending) : p.weight ≤ 1 := by
  cases p <;> simp [Pending.weight]

/-- A chain from which an action was emitted has fewer addresses left. -/
theorem weight_le_of_follow {space : AddressSpace} {image : Bytes} {e : Endian} {position : Nat}
    {s s' : State} {a : Action} (h : follow space image e position s = .emit a none s') :
    space.width.span - s'.registers.offset + s'.pending.weight ≤
      space.width.span - s.registers.offset := by
  fun_induction follow space image e position s with
  | case1 => cases h
  | case2 => cases h
  | case3 =>
    simp only [Effect.emit.injEq] at h
    obtain ⟨-, -, rfl⟩ := h
    exact Nat.le_refl _
  | case4 =>
    rename_i hdelta _ _ hadvance
    simp only [Effect.emit.injEq] at h
    obtain ⟨-, -, rfl⟩ := h
    exact Registers.span_sub_offset_lt hadvance (Nat.pos_of_ne_zero hdelta)
  | case5 => simp at h
  | case6 => cases h
  | case7 =>
    rename_i hlt ih
    exact Nat.le_trans (ih h) (Nat.le_of_lt hlt)
  | case8 => cases h

theorem weight_lt_of_resume {c : Context} {s s' : State} {a : Action}
    (h : resume c s = .emit a none s') : weight c s' < weight c s := by
  unfold resume at h
  unfold weight
  split at h
  · cases h
  · rename_i run hpending
    have hs : s.pending.weight = 1 := by rw [hpending]; rfl
    obtain ⟨r', hadvance, rfl⟩ := emitThenAdvance_eq_emit h
    have hlt := Registers.span_sub_offset_lt hadvance (run.stride_pos c.space)
    have hle := pending_weight_le (s.of run.tail? r').pending
    show _ - r'.offset + _ < _
    omega
  · rename_i position hpending
    have hs : s.pending.weight = 1 := by rw [hpending]; rfl
    unfold Context.follow at h
    split at h
    · cases h
    · have hle := weight_le_of_follow h
      omega

instance : Interpreter Context Op State Action where
  resume := resume
  act := act
  weight := weight
  bound c := c.space.width.span + 2
  weight_lt_bound c s := by
    have := pending_weight_le s.pending
    unfold weight
    omega
  weight_lt_of_resume := weight_lt_of_resume

/-- A bind stream under way. -/
abbrev Stream := OpcodeStream Context Op State

/-- The actions of an opcode stream. -/
def stream (kind : StreamKind) (bytes : Bytes) (c : Context) (limit : Option Nat) : Stream :=
  OpcodeStream.ofProgram c (Program.ofBytes opcodes kind.doneRule bytes)
    ⟨kind.registers, none, .nothing⟩ limit

end MachO.Bind
