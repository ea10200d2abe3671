import Mathlib.Algebra.Order.Floor.Div
import MachO.Opcode.Emit
import MachO.Proofs.AddressSpace.Resolve
import MachO.Proofs.Opcode.Truncation

/-!
# How many actions an opcode stream has

An action is about a place in a segment, and the next action of the same opcode is at least a pointer
behind it.  So no opcode emits more actions than the largest segment has room for pointers.

* `AddressSpace.mostSlots`, `Registers.slotsLeft`: the room of the largest segment, and the room
  behind the current place;
* `Effect.EmitsWithin`: a bound on the actions of an effect and of what it leaves suspended;
* `Opcode.Bounded`: such bounds for an interpreter of opcodes;
* `OpcodeStream.length_values_le`: what a run of opcodes emits within these bounds.
-/

namespace MachO

/-! ### Room for slots -/

theorem ceilDiv_sub_lt {size step delta : Nat} (hstep : 0 < step) (hdelta : step ≤ delta)
    (hsize : 0 < size) : (size - delta) ⌈/⌉ step < size ⌈/⌉ step := by
  have hle : size ≤ step * (size ⌈/⌉ step) := (ceilDiv_le_iff_le_mul hstep).1 le_rfl
  obtain ⟨count, hcount⟩ : ∃ count, size ⌈/⌉ step = count + 1 := by
    refine Nat.exists_eq_succ_of_ne_zero fun hzero => ?_
    rw [hzero, Nat.mul_zero] at hle
    omega
  rw [hcount, Nat.mul_succ] at hle
  rw [hcount, Nat.lt_succ_iff, ceilDiv_le_iff_le_mul hstep]
  omega

theorem ceilDiv_le_ceilDiv {size size' step : Nat} (hstep : 0 < step) (h : size ≤ size') :
    size ⌈/⌉ step ≤ size' ⌈/⌉ step :=
  (ceilDiv_le_iff_le_mul hstep).2 (h.trans ((ceilDiv_le_iff_le_mul hstep).1 le_rfl))

namespace AddressSpace

/-- The number of bytes in memory of the largest segment. -/
def largestSize (space : AddressSpace) : Nat := (space.segments.map (·.memory.size)).foldr max 0

/-- The number of pointers for which the largest segment has room, rounded up. -/
def mostSlots (space : AddressSpace) : Nat := space.largestSize ⌈/⌉ space.width.pointerSize

theorem size_le_largestSize {space : AddressSpace} {s : Segment} (hs : s ∈ space.segments) :
    s.memory.size ≤ space.largestSize := by
  obtain ⟨width, segments⟩ := space
  unfold largestSize
  induction segments with
  | nil => cases hs
  | cons first rest ih =>
    rw [List.map_cons, List.foldr_cons]
    rcases List.mem_cons.1 hs with rfl | hs
    · exact le_max_left _ _
    · exact (ih hs).trans (le_max_right _ _)

end AddressSpace

namespace Registers

variable {space : AddressSpace} {r r' : Registers} {position : Nat}

/-- The number of bytes in memory of the current segment, or zero before a segment is set. -/
def segmentSize (r : Registers) (space : AddressSpace) : Nat :=
  match r.segment.bind fun index => space.segments[index]? with
  | some segment => segment.memory.size
  | none => 0

/-- The number of pointers for which the segment has room behind the place, rounded up. -/
def slotsLeft (r : Registers) (space : AddressSpace) : Nat :=
  (r.segmentSize space - r.offset) ⌈/⌉ space.width.pointerSize

theorem segmentSize_le (r : Registers) (space : AddressSpace) :
    r.segmentSize space ≤ space.largestSize := by
  unfold segmentSize
  split
  · rename_i segment hsegment
    obtain ⟨index, -, hindex⟩ := Option.bind_eq_some_iff.1 hsegment
    exact AddressSpace.size_le_largestSize (List.mem_of_getElem? hindex)
  · exact Nat.zero_le _

theorem slotsLeft_le (r : Registers) (space : AddressSpace) :
    r.slotsLeft space ≤ space.mostSlots :=
  ceilDiv_le_ceilDiv space.width.pointerSize_pos
    ((Nat.sub_le _ _).trans (r.segmentSize_le space))

/-- A place that can be written lies in the current segment. -/
theorem offset_lt_of_target {target : Nat × Nat} (h : r.target space position = .ok target) :
    r.offset < r.segmentSize space := by
  obtain ⟨hsegment, hresolve⟩ := target_eq_ok_iff.1 h
  obtain ⟨s, hs, hoffset, -⟩ := AddressSpace.resolve_eq_ok_iff.1 hresolve
  unfold segmentSize
  rw [hsegment, Option.bind_some, hs]
  exact hoffset

theorem slotsLeft_pos {target : Nat × Nat} (h : r.target space position = .ok target) :
    0 < r.slotsLeft space := by
  have hlt := ceilDiv_sub_lt space.width.pointerSize_pos le_rfl
    (Nat.sub_pos_of_lt (offset_lt_of_target h))
  exact (Nat.zero_le _).trans_lt hlt

/-- Behind a place that can be written, a move by a pointer or more leaves less room. -/
theorem slotsLeft_lt {target : Nat × Nat} (h : r.target space position = .ok target) {delta : Nat}
    (hdelta : space.width.pointerSize ≤ delta) {u : Unit}
    (hadvance : advance space delta position r = .ok u r') :
    r'.slotsLeft space < r.slotsLeft space := by
  obtain ⟨-, -, rfl⟩ := advance_eq_ok_iff.1 hadvance
  have hlt := ceilDiv_sub_lt space.width.pointerSize_pos hdelta
    (Nat.sub_pos_of_lt (offset_lt_of_target h))
  rw [Nat.sub_sub] at hlt
  exact hlt

end Registers

/-! ### Bounds for opcodes -/

variable {Context Op State Action : Type}

/-- An action and the ones that it leaves suspended are at most `most`, where `left` bounds the
suspended ones. -/
def Effect.EmitsWithin (left : State → Nat) (most : Nat) : Effect State Action → Prop
  | .emit _ none s => left s < most
  | .emit _ (some _) _ => 0 < most
  | .proceed _ | .fail _ _ => True

theorem Effect.EmitsWithin.mono {left : State → Nat} {most most' : Nat}
    {effect : Effect State Action} (h : effect.EmitsWithin left most) (hle : most ≤ most') :
    effect.EmitsWithin left most' := by
  match effect with
  | .emit _ none _ => exact Nat.lt_of_lt_of_le h hle
  | .emit _ (some _) _ => exact Nat.lt_of_lt_of_le h hle
  | .proceed _ | .fail _ _ => trivial

theorem Effect.ofUpdate_emitsWithin (left : State → Nat) (most : Nat) (wrap : Registers → State)
    (update : Registers.Update Unit) (r : Registers) :
    (Effect.ofUpdate wrap update r : Effect State Action).EmitsWithin left most := by
  unfold Effect.ofUpdate
  split <;> trivial

/-- An action at the current place takes some of the room behind it. -/
theorem emitThenAdvance_emitsWithin {space : AddressSpace} {left : State → Nat}
    {wrap : Registers → State} {action : Registers → Except DecodeError Action}
    {delta position : Nat} {r : Registers}
    (haction : ∀ a, action r = .ok a → ∃ target, r.target space position = .ok target)
    (hdelta : space.width.pointerSize ≤ delta) (hleft : ∀ r', left (wrap r') ≤ r'.slotsLeft space) :
    (emitThenAdvance space wrap action delta position r).EmitsWithin left (r.slotsLeft space) := by
  unfold emitThenAdvance
  cases ha : action r with
  | error e => trivial
  | ok a =>
    obtain ⟨target, htarget⟩ := haction a ha
    dsimp only
    cases hadvance : Registers.advance space delta position r with
    | ok u r' => exact (hleft r').trans_lt (Registers.slotsLeft_lt htarget hdelta hadvance)
    | error e r' => exact Registers.slotsLeft_pos htarget

section Run

variable {space : AddressSpace} {left : State → Nat} {wrap : Option Run → Registers → State}
  {action : (position : Nat) → Registers → Except DecodeError Action} {run : Run} {r : Registers}

theorem Run.next_emitsWithin
    (haction : ∀ a, action run.position r = .ok a →
      ∃ target, r.target space run.position = .ok target)
    (hleft : ∀ rest r', left (wrap rest r') ≤ r'.slotsLeft space) :
    (run.next space wrap action r).EmitsWithin left (r.slotsLeft space) :=
  emitThenAdvance_emitsWithin haction (Nat.le_add_left _ _) (hleft _)

theorem Run.start_emitsWithin
    (haction : ∀ a, action run.position r = .ok a →
      ∃ target, r.target space run.position = .ok target)
    (hleft : ∀ rest r', left (wrap rest r') ≤ r'.slotsLeft space) :
    (run.start space wrap action r).EmitsWithin left (r.slotsLeft space) := by
  unfold Run.start
  split
  · trivial
  · split
    · trivial
    · exact Run.next_emitsWithin haction hleft

end Run

section Interpreter

variable [Interpreter Context Op State Action] {c : Context} {left : State → Nat} {most : Nat}

/-- Suspended opcodes emit no more than is left of them, and others at most `most` actions. -/
structure Opcode.Bounded (c : Context) (left : State → Nat) (most : Nat) : Prop where
  resume : ∀ s, (Interpreter.resume c s).EmitsWithin left (left s)
  act : ∀ position op s, (Interpreter.act c position op s).EmitsWithin left most

/-- **What a run up to the next action leaves**: every opcode that was begun is paid for. -/
theorem Opcode.Bounded.execute (h : Opcode.Bounded c left most) (code : List (Nat × Op))
    {effect : Effect State Action} {count : Nat} (heffect : effect.EmitsWithin left count) :
    ∃ count', (Opcode.execute c code effect).2.EmitsWithin left count' ∧
      count' + (Opcode.execute c code effect).1.length * most ≤ count + code.length * most := by
  induction code generalizing effect count with
  | nil => cases effect <;> exact ⟨count, heffect, le_rfl⟩
  | cons head code ih =>
    cases effect with
    | proceed s =>
      obtain ⟨count', hemits, hle⟩ := ih (h.act head.1 head.2 s)
      refine ⟨count', hemits, hle.trans ?_⟩
      rw [List.length_cons, Nat.succ_mul]
      omega
    | emit a late s => exact ⟨count, heffect, le_rfl⟩
    | fail e s => exact ⟨count, heffect, le_rfl⟩

namespace OpcodeStream

/-- **Every action is paid for** by the rest of a suspended opcode or by an opcode behind it. -/
theorem length_values_le (st : OpcodeStream Context Op State)
    (h : Opcode.Bounded st.context left most) :
    (Source.values st).length ≤ left st.state + st.code.length * most := by
  cases hnext : Source.next st with
  | mk item st' =>
    match item with
    | none =>
      rw [Source.values_eq_nil hnext]
      exact Nat.zero_le _
    | some (.error e) =>
      rw [Source.values_of_error hnext, values_of_ended (ended_of_next_eq_error hnext)]
      exact Nat.zero_le _
    | some (.ok a) =>
      obtain ⟨hended, -, -, code, late, state, hrun, hst'⟩ := next_eq_ok_iff.1 hnext
      obtain ⟨count, hemits, hle⟩ := h.execute st.code (h.resume st.state)
      rw [hrun] at hemits hle
      dsimp only at hle
      have hcontext : st'.context = st.context := by rw [hst']
      have hcode : st'.code = code := by rw [hst']
      have hstate : st'.state = state := by rw [hst']
      rw [Source.values_eq_cons hnext, List.length_cons]
      cases late with
      | some e =>
        have hlist : Source.toList st' = [.error e] :=
          toList_of_late (by rw [hst']; exact hended) (by rw [hst'])
        have hpos : 0 < count := hemits
        rw [Source.values, hlist]
        show 0 + 1 ≤ _
        omega
      | none =>
        have ih := length_values_le st' (hcontext ▸ h)
        have hlt : left state < count := hemits
        rw [hcode, hstate] at ih
        omega
termination_by Source.rank st
decreasing_by exact Source.rank_lt_of_next_eq hnext

end OpcodeStream

/-- Every opcode takes at least one byte. -/
theorem Program.length_code_ofCursor_le (ops : OpcodeSet Op) (rule : DoneRule) (c : Cursor) :
    (Program.ofCursor ops rule c).code.length ≤ c.rest.length := by
  fun_induction Program.ofCursor ops rule c with
  | case1 => exact Nat.zero_le _
  | case2 => exact Nat.zero_le _
  | case3 c hend c' hread hrule hlt ih => exact ih.trans (Nat.le_of_lt hlt)
  | case4 => exact Nat.zero_le _
  | case5 c hend op c' hread hlt rest ih => exact Nat.succ_le_of_lt (ih.trans_lt hlt)

/-- A stream whose opcodes emit at most `most` actions each has at most so many for each byte. -/
theorem OpcodeStream.length_values_ofBytes_le (h : Opcode.Bounded c left most)
    (ops : OpcodeSet Op) (rule : DoneRule) (bytes : Bytes) {state : State}
    (hstate : left state = 0) (limit : Option Nat) :
    (Source.values (ofProgram c (Program.ofBytes ops rule bytes) state limit)).length ≤
      bytes.length * most := by
  have hcode : (Program.ofBytes ops rule bytes).code.length ≤ bytes.length :=
    Program.length_code_ofCursor_le ops rule (Cursor.of bytes 0)
  have hvalues := length_values_le (ofProgram c (Program.ofBytes ops rule bytes) state limit) h
  refine hvalues.trans ?_
  show left state + (Program.ofBytes ops rule bytes).code.length * most ≤ _
  rw [hstate, Nat.zero_add]
  exact Nat.mul_le_mul_right most hcode

end Interpreter

end MachO
