import MachO.Proofs.AddressSpace.Resolve
import MachO.Proofs.Opcode.Invariant
import MachO.Rebase.Stream

/-!
# The actions of rebase streams

* `Rebase.Action.Sound`: what holds of every action;
* `Rebase.Op.Sound`, `Rebase.State.Sound`: what is known of opcodes and states on the way;
* `Rebase.invariant`: this is kept by all opcodes of a stream.
-/

namespace MachO.Rebase

/-- The opcodes that emit. -/
def EmitsAt (bytes : Bytes) (position : Nat) : Prop := bytes.HoldsOpcode position [5, 6, 7, 8]

/-- The action is about a place in a segment, and one of the opcodes that emit has its position. -/
structure Action.Sound (space : AddressSpace) (bytes : Bytes) (a : Action) : Prop where
  slot : space.IsSlot a.segment a.offset a.address
  opcode : EmitsAt bytes a.position

/-- The position of an opcode that emits holds its byte. -/
def Op.Sound (bytes : Bytes) (position : Nat) : Op → Prop
  | .emitTimes _ | .emitThenAdvance _ | .emitTimesSkipping _ _ => EmitsAt bytes position
  | _ => True

/-- A suspended opcode is one that emits. -/
def State.Sound (bytes : Bytes) (s : State) : Prop := ∀ run ∈ s.run, EmitsAt bytes run.position

variable {space : AddressSpace} {bytes : Bytes} {position : Nat}

theorem Op.sound_of_read {op : Op} {c : Cursor}
    (h : Op.read (Cursor.of bytes position) = .ok (some op) c) : op.Sound bytes position := by
  obtain ⟨byte, c₁, hbyte, h⟩ := ReadM.operands_of_read h
  have hemits (hnibble : byte.toNat / 16 ∈ [5, 6, 7, 8]) : EmitsAt bytes position :=
    ⟨byte, hbyte, hnibble⟩
  generalize hr : Op.operands position byte = r at h
  unfold Op.operands at hr
  dsimp only at hr
  -- One case for each opcode, in their order.
  split at hr
  all_goals
    rename_i hnibble
    subst hr
  · cases h
  · cases hkind : WriteKind.ofImmediate? (byte &&& 15) <;> rw [hkind] at h <;> cases h
    trivial
  · obtain ⟨offset, _, -, h⟩ := ReadM.bind_eq_ok_iff.1 h
    cases h
    trivial
  · obtain ⟨delta, _, -, h⟩ := ReadM.bind_eq_ok_iff.1 h
    cases h
    trivial
  · cases h
    trivial
  · cases h
    exact hemits (by simp [hnibble])
  · obtain ⟨count, _, -, h⟩ := ReadM.bind_eq_ok_iff.1 h
    cases h
    exact hemits (by simp [hnibble])
  · obtain ⟨delta, _, -, h⟩ := ReadM.bind_eq_ok_iff.1 h
    cases h
    exact hemits (by simp [hnibble])
  · obtain ⟨count, _, -, h⟩ := ReadM.bind_eq_ok_iff.1 h
    obtain ⟨skip, _, -, h⟩ := ReadM.bind_eq_ok_iff.1 h
    cases h
    exact hemits (by simp [hnibble])
  · cases h

theorem sound_of_actionAt (hapart : space.footprints.Pairwise Footprint.Apart)
    (hposition : EmitsAt bytes position) {r : Registers} {a : Action}
    (h : actionAt space position r = .ok a) : a.Sound space bytes := by
  unfold actionAt at h
  obtain ⟨⟨segment, address⟩, htarget, h⟩ := bind_eq_ok.1 h
  obtain ⟨kind, -, h⟩ := bind_eq_ok.1 h
  cases h
  exact ⟨Registers.isSlot_of_target hapart htarget, hposition⟩

theorem State.sound_of_tail? {run : Run} (h : EmitsAt bytes run.position) (r : Registers) :
    (State.of run.tail? r).Sound bytes := by
  intro run' hrun'
  rw [Run.tail?_position hrun']
  exact h

theorem State.sound_of_none (r : Registers) : (State.of none r).Sound bytes := nofun

/-- **All opcodes of a rebase stream emit sound actions.** -/
theorem invariant (hapart : space.footprints.Pairwise Footprint.Apart) (rule : DoneRule) :
    Opcode.Invariant (⟨space⟩ : Context) (Program.ofBytes opcodes rule bytes).code
      (State.Sound bytes) (fun a _ => a.Sound space bytes) := by
  constructor
  · intro s hs
    show (resume space s).Keeps _ _
    unfold resume
    cases hrun : s.run with
    | none => exact hs
    | some run =>
      have hposition := hs run hrun
      exact Run.next_keeps (fun a ha => sound_of_actionAt hapart hposition ha)
        fun delta u r' _ => State.sound_of_tail? hposition r'
  · intro position op hop s hs
    obtain ⟨c, hread⟩ := Program.exists_read_of_mem hop
    have hop := Op.sound_of_read hread
    have hrun {count skip : Nat} (hposition : EmitsAt bytes position) :
        (Run.start space State.of (actionAt space) ⟨count, skip, position⟩ s.registers).Keeps
          (State.Sound bytes) (fun a _ => a.Sound space bytes) :=
      Run.start_keeps (fun _ a ha => sound_of_actionAt hapart hposition ha)
        (fun _ delta u r' _ => State.sound_of_tail? hposition r') (State.sound_of_none s.registers)
    show (act space position op s).Keeps _ _
    cases op with
    | setKind kind => exact hs
    | setSegment index offset => exact Effect.ofUpdate_keeps fun u r' _ => State.sound_of_none r'
    | advance delta => exact Effect.ofUpdate_keeps fun u r' _ => State.sound_of_none r'
    | advanceScaled count => exact Effect.ofUpdate_keeps fun u r' _ => State.sound_of_none r'
    | emitTimes count => exact hrun hop
    | emitThenAdvance delta =>
      exact emitThenAdvance_keeps (fun a ha => sound_of_actionAt hapart hop ha)
        fun u r' _ => State.sound_of_none r'
    | emitTimesSkipping count skip => exact hrun hop

/-- All actions of a rebase stream are sound. -/
theorem sound_of_mem_toList (hapart : space.footprints.Pairwise Footprint.Apart)
    {limit : Option Nat} {a : Action} (ha : .ok a ∈ Source.toList (stream bytes space limit)) :
    a.Sound space bytes :=
  OpcodeStream.forall_ok_mem_toList _ (invariant hapart .optional) (fun _ => nofun) a ha

end MachO.Rebase
