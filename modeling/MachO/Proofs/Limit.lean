import MachO.Proofs.EmitFirst
import MachO.Proofs.Opcode.Limit

/-!
# Streams with a limit

* `Bind.emission`, `Rebase.emission`: how far opcodes move behind their actions;
* `Bind.tellsMoves`, `Rebase.tellsMoves`: the failure that is told behind an action is that of the
  move of its opcode;
* `limits_streams`: all that a limit changes in a bind or a rebase stream.
-/

namespace MachO

/-! ### Bind opcodes -/

namespace Bind

/-- The slot that the image holds at an address. -/
def Context.slot? (c : Context) (address : Nat) : Option Slot :=
  match c.image, c.space.fileOffset address with
  | some (image, e), .ok offset => ((ReadM.u64 e).runAt image offset).toOption.map Slot.ofWord
  | _, _ => none

/-- How far the opcode moves behind an action.  In a chain, the slot of the action tells how far the
next one is. -/
def Op.distanceBehind? (c : Context) (a : Action) : Op → Option Nat
  | .followChain => (c.slot? a.address).map fun slot => slot.distance * 8
  | op => op.distance? c.space.width

/-- The actions of bind opcodes. -/
def emission (c : Context) : Emission Op Action where
  position := Action.position
  offset := Action.offset
  address := Action.address
  distance? op a := op.distanceBehind? c a

/-- What is left of a suspended opcode is of one in a program, and moves as far. -/
def Pending.IsIn (c : Context) (code : List (Nat × Op)) : Pending → Prop
  | .nothing => True
  | .run rest =>
    ∃ op, (rest.position, op) ∈ code ∧ op.distance? c.space.width = some (rest.stride c.space)
  | .chain position => (position, .followChain) ∈ code

/-- Only opcodes of a program are suspended. -/
def State.Suspends (c : Context) (code : List (Nat × Op)) (s : State) : Prop :=
  s.pending.IsIn c code

variable {c : Context} {code : List (Nat × Op)} {position : Nat} {r : Registers} {a : Action}

theorem Op.distanceBehind?_of_distance? {op : Op} {delta : Nat}
    (h : op.distance? c.space.width = some delta) (a : Action) :
    op.distanceBehind? c a = some delta := by
  cases op with
  | followChain => cases h
  | _ => exact h

theorem place_of_actionAt {space : AddressSpace} (h : actionAt space position r = .ok a) :
    a.position = position ∧ a.offset = r.offset ∧ a.address = r.base space + r.offset := by
  unfold actionAt at h
  split at h
  · obtain ⟨⟨segment, address⟩, htarget, h⟩ := bind_eq_ok.1 h
    obtain ⟨kind, -, h⟩ := bind_eq_ok.1 h
    split at h
    · cases h
      exact ⟨rfl, rfl, (Registers.address_of_target htarget).1⟩
    · cases h
  · cases h

/-- Behind an action at the current slot, the failure of the move by the opcode's distance is
told. -/
theorem tells_of_actionAt {op : Op} (hop : (position, op) ∈ code) {delta : Nat}
    (hdelta : op.distance? c.space.width = some delta) (h : actionAt c.space position r = .ok a) :
    (emission c).Tells c.space code a (r.moveFailure? c.space delta position) := by
  obtain ⟨rfl, hoffset, haddress⟩ := place_of_actionAt h
  exact Emission.tells_of_movesBy (m := emission c)
    ⟨op, hop, Op.distanceBehind?_of_distance? hdelta a⟩ hoffset haddress

theorem State.Suspends.of_tail? {op : Op} {run : Run} (hop : (run.position, op) ∈ code)
    (hdelta : op.distance? c.space.width = some (run.stride c.space)) (s : State) (r : Registers) :
    (s.of run.tail? r).Suspends c code := by
  unfold Run.tail?
  split
  · exact ⟨op, hop, hdelta⟩
  · trivial

/-! ### Chains -/

theorem slot?_of_slotAt {image : Bytes} {e : Endian} (himage : c.image = some (image, e))
    {segment address : Nat} {slot : Slot}
    (h : slotAt c.space image e position r = .ok (segment, address, slot)) :
    c.slot? address = some slot := by
  unfold slotAt at h
  obtain ⟨⟨segment', address'⟩, htarget, h⟩ := bind_eq_ok.1 h
  dsimp only at h
  split at h
  · cases h
  · rename_i offset hoffset
    obtain ⟨word, hword, h⟩ := bind_eq_ok.1 h
    cases h
    unfold Context.slot?
    rw [himage, hoffset]
    dsimp only
    rw [hword]
    rfl

/-- Behind an action of a chain, the failure of the move to the next slot is told. -/
theorem tells_of_slotAt {image : Bytes} {e : Endian} (himage : c.image = some (image, e))
    (hop : (a.position, .followChain) ∈ code) {segment : Nat} {slot : Slot}
    (hslot : slotAt c.space image e a.position r = .ok (segment, a.address, slot))
    (hoffset : a.offset = r.offset) :
    (emission c).Tells c.space code a
      (r.moveFailure? c.space (slot.distance * 8) a.position) := by
  have haddress := (Registers.address_of_target (target_of_slotAt hslot)).1
  have hdistance : Op.distanceBehind? c a .followChain = some (slot.distance * 8) := by
    rw [Op.distanceBehind?, slot?_of_slotAt himage hslot]
    rfl
  exact Emission.tells_of_movesBy (m := emission c) ⟨_, hop, hdistance⟩ hoffset haddress

/-- The last slot of a chain moves nowhere. -/
theorem moveFailure?_zero {space : AddressSpace} {segment address : Nat}
    (h : r.target space position = .ok (segment, address)) :
    r.moveFailure? space 0 position = none := by
  obtain ⟨rfl, hspan⟩ := Registers.address_of_target h
  have hle := space.width.span_le
  refine if_pos ⟨?_, ?_⟩ <;> omega

theorem follow_tells {image : Bytes} {e : Endian} (himage : c.image = some (image, e))
    (hop : (position, .followChain) ∈ code) (s : State) :
    (follow c.space image e position s).Keeps (State.Suspends c code)
      ((emission c).Tells c.space code) := by
  fun_induction follow c.space image e position s with
  | case1 => trivial
  | case2 => trivial
  | case3 s segment address slot hslot ended delta hbinds entry hentry action hlast =>
    have htells := tells_of_slotAt (a := action) himage hop hslot rfl
    rw [show slot.distance * 8 = 0 from hlast, moveFailure?_zero (target_of_slotAt hslot)] at htells
    exact ⟨htells, fun _ => trivial⟩
  | case4 s segment address slot hslot delta hbinds entry hentry action hdelta _ r hr =>
    have htells := tells_of_slotAt (a := action) himage hop hslot rfl
    rw [Registers.moveFailure?_of_ok hr] at htells
    exact ⟨htells, fun _ => hop⟩
  | case5 s segment address slot hslot ended delta hbinds entry hentry action hdelta error r hr =>
    have htells := tells_of_slotAt (a := action) himage hop hslot rfl
    rw [Registers.moveFailure?_of_error hr] at htells
    refine ⟨htells, fun hlate => ?_⟩
    cases hlate
  | case6 => trivial
  | case7 s segment address slot hslot delta hbinds hdelta u r hr _ ih => exact ih
  | case8 => trivial

theorem followInContext_tells (hop : (position, .followChain) ∈ code) (s : State) :
    (c.follow position s).Keeps (State.Suspends c code) ((emission c).Tells c.space code) := by
  unfold Context.follow
  cases himage : c.image with
  | none => trivial
  | some found => exact follow_tells himage hop s

/-! ### Streams of bind opcodes -/

theorem tellsMoves (c : Context) (code : List (Nat × Op)) :
    Opcode.Invariant c code (State.Suspends c code) ((emission c).Tells c.space code) where
  resume s hs := by
    have hpending : s.pending.IsIn c code := hs
    show (resume c s).Keeps _ _
    unfold resume
    cases hrest : s.pending with
    | nothing => exact hs
    | run run =>
      rw [hrest] at hpending
      obtain ⟨op, hop, hdelta⟩ := hpending
      exact Run.next_keeps (fun a ha => tells_of_actionAt hop hdelta ha)
        fun _ _ r _ => .of_tail? hop hdelta s r
    | chain position =>
      rw [hrest] at hpending
      exact followInContext_tells hpending s
  act position op hop s hs := by
    have hemit {delta : Nat} (hdelta : op.distance? c.space.width = some delta) :
        (emitThenAdvance c.space (s.of none) (actionAt c.space position) delta position
          s.registers).Keeps (State.Suspends c code) ((emission c).Tells c.space code) :=
      emitThenAdvance_keeps (fun a ha => tells_of_actionAt hop hdelta ha) fun _ _ _ => trivial
    show (act c position op s).Keeps _ _
    cases op with
    | setOrdinal ordinal => exact hs
    | setSymbol symbol flags => exact hs
    | setKind kind => exact hs
    | setAddend addend => exact hs
    | setSegment index offset => exact Effect.ofUpdate_keeps fun _ _ _ => trivial
    | advance delta => exact Effect.ofUpdate_keeps fun _ _ _ => trivial
    | emit =>
      unfold act
      dsimp only
      split
      · exact hemit rfl
      · split
        · exact hs
        · trivial
    | emitThenAdvance delta => exact hemit rfl
    | emitThenAdvanceScaled count => exact hemit rfl
    | emitTimesSkipping count skip =>
      have hdelta (hcount : count ≠ 0) : (Op.emitTimesSkipping count skip).distance? c.space.width =
          some (Run.stride ⟨count, skip, position⟩ c.space) := if_neg hcount
      exact Run.start_keeps (fun hcount a ha => tells_of_actionAt hop (hdelta hcount) ha)
        (fun hcount _ _ r _ => .of_tail? hop (hdelta hcount) s r) trivial
    | startTable size => exact hs
    | followChain => exact followInContext_tells hop _

end Bind

/-! ### Rebase opcodes -/

namespace Rebase

/-- The actions of rebase opcodes. -/
def emission (space : AddressSpace) : Emission Op Action where
  position := Action.position
  offset := Action.offset
  address := Action.address
  distance? op _ := op.distance? space.width

/-- Only opcodes of a program are suspended, and what is left of one moves as far. -/
def State.Suspends (space : AddressSpace) (code : List (Nat × Op)) (s : State) : Prop :=
  ∀ run ∈ s.run, ∃ op, (run.position, op) ∈ code ∧
    op.distance? space.width = some (run.stride space)

variable {space : AddressSpace} {code : List (Nat × Op)} {position : Nat} {r : Registers}
  {a : Action}

theorem place_of_actionAt (h : actionAt space position r = .ok a) :
    a.position = position ∧ a.offset = r.offset ∧ a.address = r.base space + r.offset := by
  obtain ⟨⟨segment, address⟩, htarget, h⟩ := bind_eq_ok.1 h
  obtain ⟨kind, -, h⟩ := bind_eq_ok.1 h
  cases h
  exact ⟨rfl, rfl, (Registers.address_of_target htarget).1⟩

/-- Behind an action, the failure of the move by the opcode's distance is told. -/
theorem tells_of_actionAt {op : Op} (hop : (position, op) ∈ code) {delta : Nat}
    (hdelta : op.distance? space.width = some delta) (h : actionAt space position r = .ok a) :
    (emission space).Tells space code a (r.moveFailure? space delta position) := by
  obtain ⟨rfl, hoffset, haddress⟩ := place_of_actionAt h
  exact Emission.tells_of_movesBy (m := emission space) ⟨op, hop, hdelta⟩ hoffset haddress

theorem State.Suspends.of_tail? {op : Op} {run : Run} (hop : (run.position, op) ∈ code)
    (hdelta : op.distance? space.width = some (run.stride space)) (r : Registers) :
    (State.of run.tail? r).Suspends space code := by
  unfold Run.tail?
  split
  · rintro _ ⟨⟩
    exact ⟨op, hop, hdelta⟩
  · exact nofun

theorem tellsMoves (space : AddressSpace) (code : List (Nat × Op)) :
    Opcode.Invariant (⟨space⟩ : Context) code (State.Suspends space code)
      ((emission space).Tells space code) where
  resume s hs := by
    show (resume space s).Keeps _ _
    unfold resume
    cases hrun : s.run with
    | none => exact hs
    | some run =>
      obtain ⟨op, hop, hdelta⟩ := hs run hrun
      exact Run.next_keeps (fun a ha => tells_of_actionAt hop hdelta ha)
        fun _ _ r _ => .of_tail? hop hdelta r
  act position op hop s hs := by
    have hidle (r : Registers) : (State.of none r).Suspends space code := nofun
    have hrun {count skip : Nat} (hdelta : count ≠ 0 →
        op.distance? space.width = some (Run.stride ⟨count, skip, position⟩ space)) :
        (Run.start space State.of (actionAt space) ⟨count, skip, position⟩ s.registers).Keeps
          (State.Suspends space code) ((emission space).Tells space code) :=
      Run.start_keeps (fun hcount a ha => tells_of_actionAt hop (hdelta hcount) ha)
        (fun hcount _ _ r _ => .of_tail? hop (hdelta hcount) r) (hidle _)
    show (act space position op s).Keeps _ _
    cases op with
    | setKind kind => exact hs
    | setSegment index offset => exact Effect.ofUpdate_keeps fun _ r _ => hidle r
    | advance delta => exact Effect.ofUpdate_keeps fun _ r _ => hidle r
    | advanceScaled count => exact Effect.ofUpdate_keeps fun _ r _ => hidle r
    | emitTimes count =>
      refine hrun fun hcount => ?_
      rw [Op.distance?, if_neg hcount, Run.stride, Nat.zero_add]
    | emitThenAdvance delta =>
      exact emitThenAdvance_keeps (fun a ha => tells_of_actionAt hop rfl ha) fun _ r _ => hidle r
    | emitTimesSkipping count skip => exact hrun fun hcount => if_neg hcount

end Rebase

/-! ### Streams -/

/-- **A limit only takes items from the end of a stream**, and puts one failure behind the actions
that are left: the one of the limit, if the move behind the last action does not fail. -/
theorem limits_streams (n : Nat) (bytes : Bytes) :
    (∀ (kind : Bind.StreamKind) (c : Bind.Context),
      (Bind.stream kind bytes c none).Limits (Bind.stream kind bytes c (some n)) c.space
        (Bind.emission c) n) ∧
    ∀ space : AddressSpace,
      (Rebase.stream bytes space none).Limits (Rebase.stream bytes space (some n)) space
        (Rebase.emission space) n :=
  ⟨fun _ c => OpcodeStream.limits_withLimit (Bind.tellsMoves c _) trivial
      (fun _ _ _ => Program.eq_of_mem) rfl rfl rfl rfl n,
    fun space => OpcodeStream.limits_withLimit (Rebase.tellsMoves space _) nofun
      (fun _ _ _ => Program.eq_of_mem) rfl rfl rfl rfl n⟩

/-- Behind the last action the limit is told, unless the move behind this action fails. -/
example :
    let settings : Bytes := [0x11, 0x40, 95, 97, 0, 0x51, 0x70, 0]
    let largest : Bytes := List.replicate 9 0xff ++ [1]
    let items := fun bytes => Source.toList
      (Bind.stream .normal (settings ++ bytes) ⟨exampleSpace, none⟩ (some 1))
    let a : Bind.Action := ⟨0, 0, 0x1000, "_a", 1, .pointer, 0, 0, 8⟩
    items [0x90, 0] = [.ok a, .error (.tooManyActions 1)] ∧
      items ([0xa0] ++ largest ++ [0]) = [.ok a, .error (.slotOutOfBounds 8)] := by
  decide +kernel

end MachO
