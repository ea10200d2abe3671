import MachO.Proofs.Actions
import MachO.Proofs.Opcode.EmitFirst

/-!
# Opcodes that emit before they move

* `Op.distance?`, `Op.StrideFits`: how far an opcode moves behind an action;
* `Action.OfRegisters`: the action that registers stand for;
* `emits_first_or_overflows`: opcodes of bind and rebase streams emit before they move.

The exception are opcodes that emit many actions at a distance that is no 64-bit number.  They fail
before the first action, while an opcode that emits one action and moves as far behind it yields the
action first.
-/

namespace MachO

/-! ### Bind opcodes -/

namespace Bind

/-- How far the opcode moves behind its first action, if it emits one at the current slot. -/
def Op.distance? (width : Width) : Op → Option Nat
  | .emit => some width.pointerSize
  | .emitThenAdvance delta => some (delta + width.pointerSize)
  | .emitThenAdvanceScaled count => some (count * width.pointerSize + width.pointerSize)
  | .emitTimesSkipping count skip => if count = 0 then none else some (skip + width.pointerSize)
  | _ => none

/-- The distance of the slots of an opcode that emits many actions is a 64-bit number. -/
def Op.StrideFits (width : Width) : Op → Prop
  | .emitTimesSkipping _ skip => skip + width.pointerSize < UInt64.size
  | _ => True

/-- All registers that an action needs are set, and the action is made of them. -/
structure Action.OfRegisters (space : AddressSpace) (position : Nat) (r : Registers) (a : Action) :
    Prop where
  slot : r.AtSlot space a.segment a.address
  offset : a.offset = r.offset
  symbol : r.symbol = some a.symbol
  ordinal : r.ordinal = some a.ordinal
  kind : r.kind = some a.kind
  addend : a.addend = r.addend
  flags : a.flags = r.symbolFlags
  position : a.position = position

variable {space : AddressSpace} {position distance : Nat} {op : Op}

theorem Action.OfRegisters.actionAt_eq {a : Action} {r : Registers} (hfits : space.FitsWidth)
    (h : a.OfRegisters space position r) : actionAt space position r = .ok a := by
  obtain ⟨hslot, hoffset, hsymbol, hordinal, hkind, haddend, hflags, hposition⟩ := h
  unfold actionAt
  rw [hordinal, hslot.target_eq hfits, Registers.writeKind_eq_ok_iff.2 hkind, hsymbol, ← hoffset,
    ← haddend, ← hflags, ← hposition]
  rfl

theorem act_eq_emitThenAdvance {c : Context} {s : State}
    (hop : op.distance? c.space.width = some distance) (htable : op = .emit → s.table = none)
    (hfits : op.StrideFits c.space.width) :
    ∃ run?, act c position op s =
      emitThenAdvance c.space (s.of run?) (actionAt c.space position) distance position
        s.registers := by
  cases op with
  | emit =>
    cases hop
    refine ⟨none, ?_⟩
    unfold act
    rw [htable rfl]
  | emitThenAdvance delta =>
    cases hop
    exact ⟨none, rfl⟩
  | emitThenAdvanceScaled count =>
    cases hop
    exact ⟨none, rfl⟩
  | emitTimesSkipping count skip =>
    obtain ⟨hcount, ⟨⟩⟩ := Option.ite_none_left_eq_some.1 hop
    exact ⟨_, Run.start_of_fits hcount hfits⟩
  | _ => cases hop

theorem act_of_not_strideFits {c : Context} (hfits : ¬op.StrideFits c.space.width) (s : State) :
    act c position op s = .fail (.slotOutOfBounds position) (s.of none s.registers) := by
  cases op with
  | emitTimesSkipping count skip => exact Run.start_of_not_fits hfits
  | _ => exact absurd trivial hfits

variable {st : Stream} {rest : List (Nat × Op)} {s : State} {a : Action}

theorem emitsFirst (hwidth : st.context.space.FitsWidth) (h : st.Comes position op rest s)
    (hop : op.distance? st.context.space.width = some distance)
    (htable : op = .emit → s.table = none)
    (ha : a.OfRegisters st.context.space position s.registers)
    (hfits : op.StrideFits st.context.space.width) :
    st.EmitsFirst st.context.space State.registers position distance s.registers a := by
  obtain ⟨run?, hact⟩ := act_eq_emitThenAdvance hop htable hfits
  exact OpcodeStream.emitsFirst_of_act h hact (ha.actionAt_eq hwidth) fun _ => rfl

theorem next_of_not_strideFits (h : st.Comes position op rest s)
    (hfits : ¬op.StrideFits st.context.space.width) :
    ∃ st', Source.next st = (some (.error (.slotOutOfBounds position)), st') :=
  ⟨_, h.next_of_fail (act_of_not_strideFits hfits s)⟩

end Bind

/-! ### Rebase opcodes -/

namespace Rebase

/-- How far the opcode moves behind its first action, if it emits one. -/
def Op.distance? (width : Width) : Op → Option Nat
  | .emitTimes count => if count = 0 then none else some width.pointerSize
  | .emitThenAdvance delta => some (delta + width.pointerSize)
  | .emitTimesSkipping count skip => if count = 0 then none else some (skip + width.pointerSize)
  | _ => none

/-- The distance of the slots of an opcode that emits many actions is a 64-bit number. -/
def Op.StrideFits (width : Width) : Op → Prop
  | .emitTimesSkipping _ skip => skip + width.pointerSize < UInt64.size
  | _ => True

/-- All registers that an action needs are set, and the action is made of them. -/
structure Action.OfRegisters (space : AddressSpace) (position : Nat) (r : Registers) (a : Action) :
    Prop where
  slot : r.AtSlot space a.segment a.address
  offset : a.offset = r.offset
  kind : r.kind = some a.kind
  position : a.position = position

variable {space : AddressSpace} {position distance : Nat} {op : Op}

theorem Action.OfRegisters.actionAt_eq {a : Action} {r : Registers} (hfits : space.FitsWidth)
    (h : a.OfRegisters space position r) : actionAt space position r = .ok a := by
  obtain ⟨hslot, hoffset, hkind, hposition⟩ := h
  unfold actionAt
  rw [hslot.target_eq hfits, Registers.writeKind_eq_ok_iff.2 hkind, ← hoffset, ← hposition]
  rfl

theorem act_eq_emitThenAdvance (hop : op.distance? space.width = some distance)
    (hfits : op.StrideFits space.width) (s : State) :
    ∃ run?, act space position op s =
      emitThenAdvance space (State.of run?) (actionAt space position) distance position
        s.registers := by
  cases op with
  | emitTimes count =>
    obtain ⟨hcount, ⟨⟩⟩ := Option.ite_none_left_eq_some.1 hop
    have hstride : Run.stride ⟨count, 0, position⟩ space = space.width.pointerSize := Nat.zero_add _
    have hlt : Run.stride ⟨count, 0, position⟩ space < UInt64.size := by
      rw [hstride]
      exact Width.pointerSize_lt space.width
    rw [← hstride]
    exact ⟨_, Run.start_of_fits hcount hlt⟩
  | emitThenAdvance delta =>
    cases hop
    exact ⟨none, rfl⟩
  | emitTimesSkipping count skip =>
    obtain ⟨hcount, ⟨⟩⟩ := Option.ite_none_left_eq_some.1 hop
    exact ⟨_, Run.start_of_fits hcount hfits⟩
  | _ => cases hop

theorem act_of_not_strideFits (hfits : ¬op.StrideFits space.width) (s : State) :
    act space position op s = .fail (.slotOutOfBounds position) (State.of none s.registers) := by
  cases op with
  | emitTimesSkipping count skip => exact Run.start_of_not_fits hfits
  | _ => exact absurd trivial hfits

variable {st : Stream} {rest : List (Nat × Op)} {s : State} {a : Action}

theorem emitsFirst (hwidth : st.context.space.FitsWidth) (h : st.Comes position op rest s)
    (hop : op.distance? st.context.space.width = some distance)
    (ha : a.OfRegisters st.context.space position s.registers)
    (hfits : op.StrideFits st.context.space.width) :
    st.EmitsFirst st.context.space State.registers position distance s.registers a := by
  obtain ⟨run?, hact⟩ := act_eq_emitThenAdvance hop hfits s
  exact OpcodeStream.emitsFirst_of_act h hact (ha.actionAt_eq hwidth) fun _ => rfl

theorem next_of_not_strideFits (h : st.Comes position op rest s)
    (hfits : ¬op.StrideFits st.context.space.width) :
    ∃ st', Source.next st = (some (.error (.slotOutOfBounds position)), st') :=
  ⟨_, h.next_of_fail (act_of_not_strideFits hfits s)⟩

end Rebase

/-! ### Streams -/

/-- **Where an opcode emits at a slot, the action is yielded before the place is moved**, and a move
that leaves the address width is told by the draw behind it.  The exception are opcodes that emit
many actions at a distance that is no 64-bit number: they fail before the first action. -/
theorem emits_first_or_overflows {width : Width} {imageSize : Nat} {commands : List SegmentCommand}
    {space : AddressSpace} (h : AddressSpace.build width imageSize commands = .ok space) :
    (∀ (st : Bind.Stream) (position distance : Nat) (op : Bind.Op) (rest : List (Nat × Bind.Op))
        (s : Bind.State) (a : Bind.Action),
      st.context.space = space → st.Comes position op rest s →
      op.distance? space.width = some distance → (op = .emit → s.table = none) →
      a.OfRegisters space position s.registers →
        (op.StrideFits space.width →
          st.EmitsFirst space Bind.State.registers position distance s.registers a) ∧
        (¬op.StrideFits space.width →
          ∃ st', Source.next st = (some (.error (.slotOutOfBounds position)), st'))) ∧
    ∀ (st : Rebase.Stream) (position distance : Nat) (op : Rebase.Op) (rest : List (Nat × Rebase.Op))
        (s : Rebase.State) (a : Rebase.Action),
      st.context.space = space → st.Comes position op rest s →
      op.distance? space.width = some distance → a.OfRegisters space position s.registers →
        (op.StrideFits space.width →
          st.EmitsFirst space Rebase.State.registers position distance s.registers a) ∧
        (¬op.StrideFits space.width →
          ∃ st', Source.next st = (some (.error (.slotOutOfBounds position)), st')) := by
  have hwidth := AddressSpace.fitsWidth_of_build h
  constructor
  · rintro st position distance op rest s a rfl hcomes hop htable ha
    exact ⟨Bind.emitsFirst hwidth hcomes hop htable ha, Bind.next_of_not_strideFits hcomes⟩
  · rintro st position distance op rest s a rfl hcomes hop ha
    exact ⟨Rebase.emitsFirst hwidth hcomes hop ha, Rebase.next_of_not_strideFits hcomes⟩

/-- A bind is yielded before a move by more than 64 bits, and the first rebase of two before a move
by the largest number of 64 bits. -/
theorem emits_before_largest_moves :
    let bindBytes : Bytes :=
      [0x11, 0x40, 95, 97, 0, 0x51, 0x70, 0, 0xa0] ++ List.replicate 9 0xff ++ [1, 0]
    let rebaseBytes : Bytes := [0x11, 0x20, 0, 0x80, 2, 0xf7] ++ List.replicate 8 0xff ++ [1, 0]
    let bind := Bind.stream .normal bindBytes ⟨exampleSpace, none⟩ none
    let rebase := Rebase.stream rebaseBytes exampleSpace none
    AddressSpace.build .bits64 32 [exampleCommand] = .ok exampleSpace ∧
      (∃ bind', Source.next bind =
          (some (.ok ⟨0, 0, 0x1000, "_a", 1, .pointer, 0, 0, 8⟩), bind') ∧
        ∃ bind'', Source.next bind' = (some (.error (.slotOutOfBounds 8)), bind'')) ∧
      ∃ rebase', Source.next rebase = (some (.ok ⟨0, 0, 0x1000, .pointer, 3⟩), rebase') ∧
        ∃ rebase'', Source.next rebase' = (some (.error (.slotOutOfBounds 3)), rebase'') := by
  intro bindBytes rebaseBytes bind rebase
  have hbuild : AddressSpace.build .bits64 32 [exampleCommand] = .ok exampleSpace := rfl
  refine ⟨hbuild, ?_, ?_⟩
  · let r : Registers := ⟨some 1, some "_a", 0, some .pointer, 0, some 0, 0⟩
    let op : Bind.Op := .emitThenAdvance 0xffffffffffffffff
    have hcode : bind.code = [(0, .setOrdinal 1), (1, .setSymbol "_a" 0), (5, .setKind .pointer),
        (6, .setSegment 0 0)] ++ [(8, op)] := by
      decide +kernel
    have hcomes : bind.Comes 8 op [] ⟨r, none, .nothing⟩ := ⟨rfl, rfl, rfl, _, hcode, rfl⟩
    obtain ⟨bind', hnext, -, hlate⟩ := ((emits_first_or_overflows hbuild).1 bind 8 _ op [] _
      ⟨0, 0, 0x1000, "_a", 1, .pointer, 0, 0, 8⟩ rfl hcomes rfl nofun
      ⟨⟨rfl, _, rfl, by decide, rfl⟩, rfl, rfl, rfl, rfl, rfl, rfl, rfl⟩).1 trivial
    exact ⟨bind', hnext, (hlate (by decide +kernel)).2⟩
  · let r : Registers := { Registers.initial with kind := some .pointer, segment := some 0 }
    let op : Rebase.Op := .emitTimesSkipping 2 0xfffffffffffffff7
    have hcode : rebase.code = [(0, .setKind .pointer), (1, .setSegment 0 0)] ++ [(3, op)] := by
      decide +kernel
    have hcomes : rebase.Comes 3 op [] ⟨r, none⟩ := ⟨rfl, rfl, rfl, _, hcode, rfl⟩
    have hfits : op.StrideFits .bits64 := by
      show 0xfffffffffffffff7 + 8 < UInt64.size
      decide
    obtain ⟨rebase', hnext, -, hlate⟩ := ((emits_first_or_overflows hbuild).2 rebase 3 _ op [] _
      ⟨0, 0, 0x1000, .pointer, 3⟩ rfl hcomes rfl
      ⟨⟨rfl, _, rfl, by decide, rfl⟩, rfl, rfl, rfl⟩).1 hfits
    exact ⟨rebase', hnext, (hlate (by decide +kernel)).2⟩

/-- In bind and rebase streams, an opcode that emits a number of actions at a distance of more than
64 bits fails without the first one, while one that emits one action and moves as far behind it
yields the action from the same registers. -/
theorem overflows_before_first_action :
    let largest : Bytes := List.replicate 9 0xff ++ [1]
    let binds : Bytes := [0x11, 0x40, 95, 97, 0, 0x51, 0x70, 0]
    let rebases : Bytes := [0x11, 0x20, 0]
    let bind := fun bytes =>
      Source.toList (Bind.stream .normal (binds ++ bytes) ⟨exampleSpace, none⟩ none)
    let rebase := fun bytes => Source.toList (Rebase.stream (rebases ++ bytes) exampleSpace none)
    bind ([0xa0] ++ largest ++ [0]) =
        [.ok ⟨0, 0, 0x1000, "_a", 1, .pointer, 0, 0, 8⟩, .error (.slotOutOfBounds 8)] ∧
      bind ([0xc0, 1] ++ largest ++ [0]) = [.error (.slotOutOfBounds 8)] ∧
      rebase ([0x70] ++ largest ++ [0]) =
        [.ok ⟨0, 0, 0x1000, .pointer, 3⟩, .error (.slotOutOfBounds 3)] ∧
      rebase ([0x80, 1] ++ largest ++ [0]) = [.error (.slotOutOfBounds 3)] := by
  decide +kernel

end MachO
