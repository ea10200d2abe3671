import MachO.Proofs.Actions
import MachO.Proofs.Opcode.ActionCount

/-!
# Streams of actions are finite

* `Rebase.bounded`, `Bind.bounded`: no opcode emits more actions than the largest segment has room
  for pointers;
* `Bind.GoesOn`: the slots of a chain that do not bind, which are followed within one draw;
* `actions_bounded`: how many actions the streams of an address space can have.
-/

namespace MachO

variable {space : AddressSpace} {position : Nat}

namespace Rebase

/-- The room for a suspended opcode, if there is one. -/
def State.slotsLeft (space : AddressSpace) (s : State) : Nat :=
  if s.run.isSome then s.registers.slotsLeft space else 0

theorem State.slotsLeft_le (s : State) : s.slotsLeft space ≤ s.registers.slotsLeft space := by
  unfold State.slotsLeft
  split
  · exact le_rfl
  · exact Nat.zero_le _

theorem exists_target {r : Registers} {a : Action} (h : actionAt space position r = .ok a) :
    ∃ target, r.target space position = .ok target := by
  obtain ⟨target, htarget, -⟩ := bind_eq_ok.1 h
  exact ⟨target, htarget⟩

/-- **No rebase opcode emits more actions than fit into a segment.** -/
theorem bounded (space : AddressSpace) :
    Opcode.Bounded (⟨space⟩ : Context) (State.slotsLeft space) space.mostSlots := by
  constructor
  · intro s
    show (resume space s).EmitsWithin _ _
    unfold resume State.slotsLeft
    cases s.run with
    | none => trivial
    | some run =>
      exact Run.next_emitsWithin (fun _ => exists_target)
        fun rest r' => (State.of rest r').slotsLeft_le
  · intro position op s
    have hmost := s.registers.slotsLeft_le space
    have hrun (count skip : Nat) :
        (Run.start space State.of (actionAt space) ⟨count, skip, position⟩
          s.registers).EmitsWithin (State.slotsLeft space) space.mostSlots :=
      (Run.start_emitsWithin (fun _ => exists_target)
        fun rest r' => (State.of rest r').slotsLeft_le).mono hmost
    show (act space position op s).EmitsWithin _ _
    cases op with
    | setKind kind => trivial
    | setSegment index offset => exact Effect.ofUpdate_emitsWithin _ _ _ _ _
    | advance delta => exact Effect.ofUpdate_emitsWithin _ _ _ _ _
    | advanceScaled count => exact Effect.ofUpdate_emitsWithin _ _ _ _ _
    | emitTimes count => exact hrun count 0
    | emitThenAdvance delta =>
      exact (emitThenAdvance_emitsWithin (fun _ => exists_target) (Nat.le_add_left _ _)
        fun r' => (State.of none r').slotsLeft_le).mono hmost
    | emitTimesSkipping count skip => exact hrun count skip

end Rebase

namespace Bind

/-- The room for a suspended opcode, if there is one. -/
def State.slotsLeft (space : AddressSpace) (s : State) : Nat :=
  match s.pending with
  | .nothing => 0
  | _ => s.registers.slotsLeft space

theorem State.slotsLeft_le (s : State) : s.slotsLeft space ≤ s.registers.slotsLeft space := by
  unfold State.slotsLeft
  split
  · exact Nat.zero_le _
  · exact le_rfl

theorem exists_target {r : Registers} {a : Action} (h : actionAt space position r = .ok a) :
    ∃ target, r.target space position = .ok target := by
  unfold actionAt at h
  cases hordinal : r.ordinal with
  | none =>
    rw [hordinal] at h
    cases h
  | some ordinal =>
    rw [hordinal] at h
    obtain ⟨target, htarget, -⟩ := bind_eq_ok.1 h
    exact ⟨target, htarget⟩

/-! ### Chains -/

/-- The slot at a place does not bind, and leads to a further place. -/
def GoesOn (space : AddressSpace) (image : Bytes) (e : Endian) (position : Nat)
    (r r' : Registers) : Prop :=
  ∃ segment address slot, slotAt space image e position r = .ok (segment, address, slot) ∧
    slot.binds = false ∧ slot.distance ≠ 0 ∧
      Registers.advance space (slot.distance * 8) position r = .ok () r'

theorem pointerSize_le_of_ne_zero {distance : Nat} (h : distance * 8 ≠ 0) :
    space.width.pointerSize ≤ distance * 8 := by
  have : space.width.pointerSize ≤ 8 := by cases space.width <;> decide
  omega

variable {image : Bytes} {e : Endian}

theorem GoesOn.slotsLeft_lt {r r' : Registers} (h : GoesOn space image e position r r') :
    r'.slotsLeft space < r.slotsLeft space := by
  obtain ⟨segment, address, slot, hslot, -, hdistance, hadvance⟩ := h
  exact Registers.slotsLeft_lt (target_of_slotAt hslot)
    (pointerSize_le_of_ne_zero (by omega)) hadvance

/-- A chain is followed from the next place on. -/
theorem GoesOn.follow_eq {s : State} {r' : Registers}
    (h : GoesOn space image e position s.registers r') :
    follow space image e position s = follow space image e position { s with registers := r' } := by
  obtain ⟨segment, address, slot, hslot, hbinds, hdistance, hadvance⟩ := h
  have hdelta : slot.distance * 8 ≠ 0 := by omega
  rw [Bind.follow_eq, hslot]
  dsimp only
  rw [hbinds, if_neg Bool.false_ne_true, if_neg hdelta, hadvance]

/-- **A chain goes on at most as often as pointers fit into a segment**, and then it is the same
chain. -/
theorem length_le_of_goesOn {r : Registers} {places : List Registers}
    (h : (r :: places).IsChain (GoesOn space image e position)) :
    places.length ≤ r.slotsLeft space ∧
      ∀ s : State, follow space image e position { s with registers := r } =
        follow space image e position { s with registers := places.getLastD r } := by
  induction places generalizing r with
  | nil => exact ⟨Nat.zero_le _, fun s => rfl⟩
  | cons r' places ih =>
    obtain ⟨hgoes, hrest⟩ := List.isChain_cons_cons.1 h
    obtain ⟨hlength, hfollow⟩ := ih hrest
    refine ⟨Nat.succ_le_of_lt (hlength.trans_lt hgoes.slotsLeft_lt), fun s => ?_⟩
    rw [hgoes.follow_eq, hfollow s, List.getLastD_cons]

/-- Along a chain, every action takes some of the room behind its place. -/
theorem follow_emitsWithin (s : State) :
    (follow space image e position s).EmitsWithin (State.slotsLeft space)
      (s.registers.slotsLeft space) := by
  fun_induction follow space image e position s with
  | case1 => trivial
  | case2 => trivial
  | case3 s segment address slot hslot => exact Registers.slotsLeft_pos (target_of_slotAt hslot)
  | case4 s segment address slot hslot _ _ _ _ _ hdelta _ r hadvance =>
    exact Registers.slotsLeft_lt (target_of_slotAt hslot) (pointerSize_le_of_ne_zero hdelta) hadvance
  | case5 s segment address slot hslot => exact Registers.slotsLeft_pos (target_of_slotAt hslot)
  | case6 => trivial
  | case7 s segment address slot hslot _ _ hdelta _ r hadvance _ ih =>
    exact ih.mono (Nat.le_of_lt (Registers.slotsLeft_lt (target_of_slotAt hslot)
      (pointerSize_le_of_ne_zero hdelta) hadvance))
  | case8 => trivial

theorem followInContext_emitsWithin (c : Context) (position : Nat) (s : State) :
    (c.follow position s).EmitsWithin (State.slotsLeft c.space) (s.registers.slotsLeft c.space) := by
  unfold Context.follow
  split
  · trivial
  · exact follow_emitsWithin s

/-! ### Opcodes -/

theorem resume_emitsWithin (c : Context) (s : State) :
    (resume c s).EmitsWithin (State.slotsLeft c.space) (s.slotsLeft c.space) := by
  unfold resume State.slotsLeft
  cases s.pending with
  | nothing => trivial
  | run run =>
    exact Run.next_emitsWithin (fun _ => exists_target) fun rest r' => (s.of rest r').slotsLeft_le
  | chain position => exact followInContext_emitsWithin c position s

theorem act_emitsWithin (c : Context) (position : Nat) (op : Op) (s : State) :
    (act c position op s).EmitsWithin (State.slotsLeft c.space) c.space.mostSlots := by
  have hmost := s.registers.slotsLeft_le c.space
  have hemit {delta : Nat} (hdelta : c.space.width.pointerSize ≤ delta) :
      (emitThenAdvance c.space (s.of none) (actionAt c.space position) delta position
        s.registers).EmitsWithin (State.slotsLeft c.space) c.space.mostSlots :=
    (emitThenAdvance_emitsWithin (fun _ => exists_target) hdelta
      fun r' => (s.of none r').slotsLeft_le).mono hmost
  cases op with
  | setOrdinal ordinal => trivial
  | setSymbol symbol flags => trivial
  | setKind kind => trivial
  | setAddend addend => trivial
  | setSegment index offset => exact Effect.ofUpdate_emitsWithin _ _ _ _ _
  | advance delta => exact Effect.ofUpdate_emitsWithin _ _ _ _ _
  | emit =>
    unfold act
    dsimp only
    split
    · exact hemit le_rfl
    · split <;> trivial
  | emitThenAdvance delta => exact hemit (Nat.le_add_left _ _)
  | emitThenAdvanceScaled count => exact hemit (Nat.le_add_left _ _)
  | emitTimesSkipping count skip =>
    exact (Run.start_emitsWithin (fun _ => exists_target)
      fun rest r' => (s.of rest r').slotsLeft_le).mono hmost
  | startTable size => trivial
  | followChain => exact (followInContext_emitsWithin c position _).mono hmost

/-- **No bind opcode emits more actions than fit into a segment**, also when it follows a chain. -/
theorem bounded (c : Context) :
    Opcode.Bounded c (State.slotsLeft c.space) c.space.mostSlots where
  resume := resume_emitsWithin c
  act := act_emitsWithin c

end Bind

/-- **Streams are finite.**  Whatever the opcodes, the segments and the image, a stream yields
actions, then at most one failure, and then nothing any more.  There are at most as many actions for
each byte of the stream as the largest segment has room for pointers, and no chain goes on for longer
than that without an action. -/
theorem actions_bounded (bytes : Bytes) (space : AddressSpace) (kind : Bind.StreamKind)
    (image : Option (Bytes × Endian)) (limit : Option Nat) :
    let binds := Bind.stream kind bytes ⟨space, image⟩ limit
    let rebases := Rebase.stream bytes space limit
    let most := space.largestSize ⌈/⌉ space.width.pointerSize
    (∃ failure, Source.Drains binds failure) ∧
    (Source.values binds).length ≤ bytes.length * most ∧
    (∃ failure, Source.Drains rebases failure) ∧
    (Source.values rebases).length ≤ bytes.length * most ∧
    ∀ (image : Bytes) (e : Endian) (position : Nat) (r : Registers) (places : List Registers),
      (r :: places).IsChain (Bind.GoesOn space image e position) →
        places.length ≤ most ∧
          ∀ s : Bind.State, Bind.follow space image e position { s with registers := r } =
            Bind.follow space image e position { s with registers := places.getLastD r } := by
  intro binds rebases most
  refine ⟨Source.exists_drains _, ?_, Source.exists_drains _, ?_, ?_⟩
  · exact OpcodeStream.length_values_ofBytes_le (Bind.bounded ⟨space, image⟩) _ _ bytes rfl limit
  · exact OpcodeStream.length_values_ofBytes_le (Rebase.bounded space) _ _ bytes rfl limit
  · intro image e position r places hchain
    obtain ⟨hlength, hfollow⟩ := Bind.length_le_of_goesOn hchain
    exact ⟨hlength.trans (r.slotsLeft_le space), hfollow⟩

/-- A segment with room for four pointers: an opcode that asks for more slots than that emits
four actions, and a chain that begins with a slot that does not bind goes on once. -/
theorem actions_bounded_example :
    let bytes : Bytes := [0x11, 0x20, 0, 0x60] ++ List.replicate 9 0xff ++ [1]
    let image : Bytes := [0, 0, 0, 0, 0, 0, 8, 0] ++ List.replicate 24 0
    let r : Registers := { Registers.initial with segment := some 0 }
    exampleSpace.largestSize ⌈/⌉ exampleSpace.width.pointerSize = 4 ∧
      (Source.values (Rebase.stream bytes exampleSpace none)).length = 4 ∧ 4 ≤ bytes.length * 4 ∧
      [r, { r with offset := 8 }].IsChain (Bind.GoesOn exampleSpace image .little 0) ∧
      [{ r with offset := 8 }].length ≤ 4 := by
  intro bytes image r
  have hmost : exampleSpace.largestSize ⌈/⌉ exampleSpace.width.pointerSize = 4 := rfl
  have hcount : (Source.values (Rebase.stream bytes exampleSpace none)).length = 4 := by
    decide +kernel
  have hgoes : Bind.GoesOn exampleSpace image .little 0 r { r with offset := 8 } :=
    ⟨0, 0x1000, ⟨1, false, 0, false⟩, by decide +kernel, rfl, by decide, rfl⟩
  have hchain : [r, { r with offset := 8 }].IsChain (Bind.GoesOn exampleSpace image .little 0) :=
    List.isChain_cons_cons.2 ⟨hgoes, .singleton _⟩
  obtain ⟨-, -, -, hle, hchains⟩ := actions_bounded bytes exampleSpace .normal none none
  rw [hmost] at hle hchains
  rw [hcount] at hle
  exact ⟨hmost, hcount, hle, hchain, (hchains image .little 0 r _ hchain).1⟩

end MachO
