import MachO.Bind.Stream
import MachO.Proofs.Fields
import MachO.Proofs.Opcode.Positions
import MachO.Rebase.Stream

/-!
# Bind and rebase streams without positions

* `Bind.forgets`, `Rebase.forgets`: positions are only told;
* `Bind.follow_withoutPosition`: chains of slots.
-/

namespace MachO

/-! ### Bind opcodes -/

namespace Bind

instance : Positioned Action where
  withoutPosition a := { a with position := 0 }

instance : Positioned Pending where
  withoutPosition
    | .nothing => .nothing
    | .run run => .run (withoutPosition run)
    | .chain _ => .chain 0

instance : Positioned State where
  withoutPosition s := { s with pending := withoutPosition s.pending }

variable {space : AddressSpace}

theorem State.withoutPosition_of (s : State) (run? : Option Run) (r : Registers) :
    (withoutPosition s).of (run?.map withoutPosition) r = withoutPosition (s.of run? r) := by
  cases run? <;> rfl

theorem actionAt_withoutPosition (position : Nat) (r : Registers) :
    actionAt space 0 r = withoutPosition (actionAt space position r) := by
  unfold actionAt
  cases r.ordinal with
  | none => rfl
  | some ordinal =>
    dsimp only
    rw [Registers.target_withoutPosition space position]
    cases r.target space position with
    | error e => rfl
    | ok place =>
      show r.writeKind 0 >>= _ = withoutPosition (r.writeKind position >>= _)
      rw [Registers.writeKind_withoutPosition position]
      cases r.writeKind position with
      | error e => rfl
      | ok kind => cases r.symbol <;> rfl

theorem entryAt_withoutPosition (position : Nat) (r : Registers) :
    entryAt 0 r = (entryAt position r).mapError withoutPosition := by
  unfold entryAt
  cases r.symbol with
  | none => rfl
  | some symbol => cases r.ordinal <;> rfl

theorem slotAt_withoutPosition (image : Bytes) (e : Endian) (position : Nat) (r : Registers) :
    slotAt space image e 0 r = (slotAt space image e position r).mapError withoutPosition := by
  unfold slotAt
  rw [Registers.target_withoutPosition space position]
  cases r.target space position with
  | error error => rfl
  | ok place =>
    obtain ⟨segment, address⟩ := place
    rw [Except.mapError, ok_bind, ok_bind]
    dsimp only
    cases space.fileOffset address with
    | error error => rfl
    | ok offset =>
      -- A word that is missing tells an offset in the image.
      dsimp only
      rw [ReadM.runAt_u64]
      split <;> rfl

/-- A chain is followed alike wherever the opcode is. -/
theorem follow_withoutPosition (image : Bytes) (e : Endian) (position : Nat) (s : State) :
    follow space image e 0 (withoutPosition s) =
      withoutPosition (follow space image e position s) := by
  have hslot' {s : State} : slotAt space image e 0 (withoutPosition s).registers =
      (slotAt space image e position s.registers).mapError withoutPosition :=
    slotAt_withoutPosition image e position s.registers
  have hadvance {s : State} (delta : Nat) :
      Registers.advance space delta 0 (withoutPosition s).registers =
        withoutPosition (Registers.advance space delta position s.registers) :=
    Registers.advance_withoutPosition space delta position s.registers
  have hentry' {s : State} : (withoutPosition s).entries = s.entries := rfl
  fun_induction follow space image e position s with
  | case1 s error hslot =>
    rw [follow_eq, hslot', hslot]
    rfl
  | case2 s segment address slot hslot hbinds hentry =>
    rw [follow_eq, hslot', hslot]
    dsimp only [Except.mapError]
    rw [if_pos hbinds, hentry', hentry]
    rfl
  | case3 s segment address slot hslot ended delta hbinds entry hentry action hlast =>
    rw [follow_eq, hslot', hslot]
    dsimp only [Except.mapError]
    rw [if_pos hbinds, hentry', hentry]
    exact if_pos hlast
  | case4 s segment address slot hslot delta hbinds entry hentry action hdelta u r hr =>
    rw [follow_eq, hslot', hslot]
    dsimp only [Except.mapError]
    rw [if_pos hbinds, hentry', hentry]
    dsimp only
    rw [if_neg hdelta, hadvance, hr]
    rfl
  | case5 s segment address slot hslot ended delta hbinds entry hentry action hdelta error r hr =>
    rw [follow_eq, hslot', hslot]
    dsimp only [Except.mapError]
    rw [if_pos hbinds, hentry', hentry]
    dsimp only
    rw [if_neg hdelta, hadvance, hr]
    rfl
  | case6 s segment address slot hslot ended delta hbinds hlast =>
    rw [follow_eq, hslot', hslot]
    dsimp only [Except.mapError]
    rw [if_neg hbinds]
    exact if_pos hlast
  | case7 s segment address slot hslot delta hbinds hdelta u r hr _ ih =>
    rw [follow_eq, hslot', hslot]
    dsimp only [Except.mapError]
    rw [if_neg hbinds, if_neg hdelta, hadvance, hr]
    exact ih
  | case8 s segment address slot hslot ended delta hbinds hdelta error r hr =>
    rw [follow_eq, hslot', hslot]
    dsimp only [Except.mapError]
    rw [if_neg hbinds, if_neg hdelta, hadvance, hr]
    rfl

theorem followInContext_withoutPosition (c : Context) (position : Nat) (s : State) :
    c.follow 0 (withoutPosition s) = withoutPosition (c.follow position s) := by
  unfold Context.follow
  cases c.image with
  | none => rfl
  | some found => exact follow_withoutPosition found.1 found.2 position s

/-- **Bind opcodes only tell their positions.** -/
theorem forgets (c : Context) : Opcode.Forgets c where
  resume s := by
    show resume c (withoutPosition s) = withoutPosition (resume c s)
    unfold resume
    rw [show (withoutPosition s).pending = withoutPosition s.pending from rfl]
    cases s.pending with
    | nothing => rfl
    | run run =>
      exact Run.next_withoutPosition s.withoutPosition_of actionAt_withoutPosition run
    | chain position => exact followInContext_withoutPosition c position s
  act position op s := by
    have hwrap := s.withoutPosition_of none
    have hemit (delta : Nat) :
        emitThenAdvance c.space ((withoutPosition s).of none) (actionAt c.space 0) delta 0
          s.registers = withoutPosition (emitThenAdvance c.space (s.of none)
            (actionAt c.space position) delta position s.registers) :=
      emitThenAdvance_withoutPosition hwrap (actionAt_withoutPosition position s.registers)
    show act c 0 op (withoutPosition s) = withoutPosition (act c position op s)
    cases op with
    | setOrdinal ordinal => rfl
    | setSymbol symbol flags => rfl
    | setKind kind => rfl
    | setAddend addend => rfl
    | setSegment index offset =>
      exact Effect.ofUpdate_withoutPosition hwrap
        (Registers.setSegment_withoutPosition c.space index offset position s.registers)
    | advance delta =>
      exact Effect.ofUpdate_withoutPosition hwrap
        (Registers.advance_withoutPosition c.space delta position s.registers)
    | emit =>
      have htable : (withoutPosition s).table = s.table := rfl
      unfold act
      dsimp only
      rw [htable]
      cases s.table with
      | none => exact hemit _
      | some table =>
        dsimp only
        rw [show entryAt 0 (withoutPosition s).registers = _ from
          entryAt_withoutPosition position s.registers]
        cases entryAt position s.registers <;> rfl
    | emitThenAdvance delta => exact hemit _
    | emitThenAdvanceScaled count => exact hemit _
    | emitTimesSkipping count skip =>
      exact Run.start_withoutPosition s.withoutPosition_of actionAt_withoutPosition
        ⟨count, skip, position⟩
    | startTable size => rfl
    | followChain =>
      exact followInContext_withoutPosition c position { s with pending := .chain position }

end Bind

/-! ### Rebase opcodes -/

namespace Rebase

instance : Positioned Action where
  withoutPosition a := { a with position := 0 }

instance : Positioned State where
  withoutPosition s := { s with run := s.run.map withoutPosition }

theorem actionAt_withoutPosition {space : AddressSpace} (position : Nat) (r : Registers) :
    actionAt space 0 r = withoutPosition (actionAt space position r) := by
  unfold actionAt
  rw [Registers.target_withoutPosition space position]
  cases r.target space position with
  | error e => rfl
  | ok place =>
    show r.writeKind 0 >>= _ = withoutPosition (r.writeKind position >>= _)
    rw [Registers.writeKind_withoutPosition position]
    cases r.writeKind position <;> rfl

/-- **Rebase opcodes only tell their positions.** -/
theorem forgets (c : Context) : Opcode.Forgets c where
  resume s := by
    show resume c.space (withoutPosition s) = withoutPosition (resume c.space s)
    unfold resume
    rw [show (withoutPosition s).run = s.run.map withoutPosition from rfl]
    cases s.run with
    | none => rfl
    | some run => exact Run.next_withoutPosition (fun _ _ => rfl) actionAt_withoutPosition run
  act position op s := by
    have hadvance (delta : Nat) :
        (Effect.ofUpdate (State.of none) (Registers.advance c.space delta 0) s.registers :
          Effect State Action) = withoutPosition (Effect.ofUpdate (State.of none)
            (Registers.advance c.space delta position) s.registers) :=
      Effect.ofUpdate_withoutPosition (fun _ => rfl)
        (Registers.advance_withoutPosition c.space delta position s.registers)
    have hrun (count skip : Nat) :
        Run.start c.space State.of (actionAt c.space) ⟨count, skip, 0⟩ s.registers =
          withoutPosition (Run.start c.space State.of (actionAt c.space) ⟨count, skip, position⟩
            s.registers) :=
      Run.start_withoutPosition (fun _ _ => rfl) actionAt_withoutPosition ⟨count, skip, position⟩
    show act c.space 0 op (withoutPosition s) = withoutPosition (act c.space position op s)
    cases op with
    | setKind kind => rfl
    | setSegment index offset =>
      exact Effect.ofUpdate_withoutPosition (fun _ => rfl)
        (Registers.setSegment_withoutPosition c.space index offset position s.registers)
    | advance delta => exact hadvance delta
    | advanceScaled count => exact hadvance _
    | emitTimes count => exact hrun count 0
    | emitThenAdvance delta =>
      exact emitThenAdvance_withoutPosition (fun _ => rfl)
        (actionAt_withoutPosition position s.registers)
    | emitTimesSkipping count skip => exact hrun count skip

end Rebase

end MachO
