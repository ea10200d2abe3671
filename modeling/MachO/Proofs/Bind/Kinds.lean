import MachO.Proofs.Actions
import MachO.Proofs.Opcode.Lifting
import MachO.Proofs.Opcode.Truncation

/-!
# The kinds of bind streams

The three bind streams of an image differ in the registers before the first opcode, and in what DONE
does.

* `Registers.withDefaults`: what is not set is what it is in other registers;
* `Bind.lifts_withDefaults`: an opcode that does not fail does the same with defaults;
* `Bind.ofCursor_ignored`: where DONE ends a stream without a failure, nothing follows it;
* `Bind.toList_stream_of_clean`: what a normal stream yields without a failure, the other streams
  yield as well.
-/

namespace MachO

/-! ### Defaults -/

namespace Registers

variable {space : AddressSpace} {delta offset position : Nat} {index : UInt8} {d r r' : Registers}

/-- The registers, with the ordinal and the kind of other registers where they are not set. -/
def withDefaults (d r : Registers) : Registers :=
  { r with ordinal := r.ordinal.or d.ordinal, kind := r.kind.or d.kind }

theorem ordinal_withDefaults {ordinal : Int} (h : r.ordinal = some ordinal) :
    (withDefaults d r).ordinal = some ordinal := by
  show r.ordinal.or d.ordinal = _
  rw [h]
  rfl

theorem advance_ok_withDefaults {u : Unit} (h : advance space delta position r = .ok u r') :
    advance space delta position (withDefaults d r) = .ok u (withDefaults d r') := by
  obtain ⟨hoffset, hspan, rfl⟩ := advance_eq_ok_iff.1 h
  exact advance_eq_ok_iff.2 ⟨hoffset, hspan, rfl⟩

theorem advance_error_withDefaults {e : DecodeError}
    (h : advance space delta position r = .error e r') :
    advance space delta position (withDefaults d r) = .error e (withDefaults d r') := by
  unfold advance at h ⊢
  split at h
  · cases h
  · rename_i hbounds
    cases h
    exact if_neg hbounds

theorem setSegment_ok_withDefaults {u : Unit}
    (h : setSegment space index offset position r = .ok u r') :
    setSegment space index offset position (withDefaults d r) = .ok u (withDefaults d r') := by
  rcases Nat.lt_or_ge index.toNat space.segments.length with hlt | hle
  · rw [setSegment_of_lt hlt] at h ⊢
    exact advance_ok_withDefaults h
  · rw [setSegment_of_le hle] at h
    cases h

theorem writeKind_withDefaults {kind : WriteKind} (h : r.writeKind position = .ok kind) :
    (withDefaults d r).writeKind position = .ok kind := by
  rw [writeKind_eq_ok_iff] at h ⊢
  show r.kind.or d.kind = some kind
  rw [h]
  rfl

end Registers

namespace Bind

open Registers (withDefaults)

/-- The state, with the ordinal and the kind of other registers where they are not set. -/
def State.withDefaults (d : Registers) (s : State) : State :=
  { s with registers := Registers.withDefaults d s.registers }

variable {space : AddressSpace} {position : Nat} {d r : Registers}

/-- Registers that have all that an action needs have it with defaults as well. -/
theorem actionAt_withDefaults {a : Action} (h : actionAt space position r = .ok a) :
    actionAt space position (withDefaults d r) = .ok a := by
  unfold actionAt at h ⊢
  cases hordinal : r.ordinal with
  | none =>
    rw [hordinal] at h
    cases h
  | some ordinal =>
    rw [hordinal] at h
    obtain ⟨place, htarget, h⟩ := bind_eq_ok.1 h
    obtain ⟨kind, hkind, h⟩ := bind_eq_ok.1 h
    rw [Registers.ordinal_withDefaults hordinal]
    exact bind_eq_ok.2 ⟨place, htarget, bind_eq_ok.2
      ⟨kind, Registers.writeKind_withDefaults hkind, h⟩⟩

theorem entryAt_withDefaults {entry : Entry} (h : entryAt position r = .ok entry) :
    entryAt position (withDefaults d r) = .ok entry := by
  unfold entryAt at h ⊢
  cases hordinal : r.ordinal with
  | none =>
    cases hsymbol : r.symbol <;> rw [hsymbol, hordinal] at h <;> cases h
  | some ordinal =>
    rw [hordinal] at h
    rw [Registers.ordinal_withDefaults hordinal]
    exact h

theorem update_liftsTo (s : State) {update : Registers.Update Unit}
    (hupdate : ∀ u r', update s.registers = .ok u r' →
      update (withDefaults d s.registers) = .ok u (withDefaults d r')) :
    (Effect.ofUpdate (s.of none) update s.registers : Effect State Action).LiftsTo
      (State.withDefaults d)
      (Effect.ofUpdate ((s.withDefaults d).of none) update (withDefaults d s.registers)) :=
  Effect.ofUpdate_liftsTo (fun _ => rfl) hupdate

theorem emit_liftsTo (s : State) (run : Option Run) (action : Registers → Except DecodeError Action)
    (haction : ∀ a, action s.registers = .ok a → action (withDefaults d s.registers) = .ok a)
    (delta : Nat) :
    (emitThenAdvance space (s.of run) action delta position s.registers).LiftsTo
      (State.withDefaults d)
      (emitThenAdvance space ((s.withDefaults d).of run) action delta position
        (withDefaults d s.registers)) :=
  emitThenAdvance_liftsTo (fun _ => rfl) haction (fun _ _ => Registers.advance_ok_withDefaults)
    fun _ _ => Registers.advance_error_withDefaults

theorem slotAt_withDefaults (image : Bytes) (e : Endian) (d r : Registers) :
    slotAt space image e position (withDefaults d r) = slotAt space image e position r := rfl

/-- A chain needs neither the ordinal nor the kind of the registers. -/
theorem follow_liftsTo (image : Bytes) (e : Endian) (d : Registers) (s : State) :
    (follow space image e position s).LiftsTo (State.withDefaults d)
      (follow space image e position (s.withDefaults d)) := by
  have hslot' {s : State} {found : Nat × Nat × Slot}
      (hslot : slotAt space image e position s.registers = .ok found) :
      slotAt space image e position (s.withDefaults d).registers = .ok found :=
    (slotAt_withDefaults image e d s.registers).trans hslot
  have hentry' {s : State} {index : Nat} {entry : Entry} (hentry : s.entries[index]? = some entry) :
      (s.withDefaults d).entries[index]? = some entry := hentry
  fun_induction follow space image e position s with
  | case1 s error hslot => exact Effect.fail_liftsTo _
  | case2 s segment address slot hslot hbinds hentry => exact Effect.fail_liftsTo _
  | case3 s segment address slot hslot ended delta hbinds entry hentry action hlast =>
    intro _
    rw [follow_eq, hslot' hslot]
    dsimp only
    rw [if_pos hbinds, hentry' hentry]
    exact if_pos hlast
  | case4 s segment address slot hslot delta hbinds entry hentry action hdelta u r hr =>
    intro _
    rw [follow_eq, hslot' hslot]
    dsimp only
    rw [if_pos hbinds, hentry' hentry]
    dsimp only
    rw [if_neg hdelta, show Registers.advance space (slot.distance * 8) position
      (s.withDefaults d).registers = _ from Registers.advance_ok_withDefaults hr]
    rfl
  | case5 s segment address slot hslot ended delta hbinds entry hentry action hdelta error r hr =>
    intro _
    rw [follow_eq, hslot' hslot]
    dsimp only
    rw [if_pos hbinds, hentry' hentry]
    dsimp only
    rw [if_neg hdelta, show Registers.advance space (slot.distance * 8) position
      (s.withDefaults d).registers = _ from Registers.advance_error_withDefaults hr]
    rfl
  | case6 s segment address slot hslot ended delta hbinds hlast =>
    intro _
    rw [follow_eq, hslot' hslot]
    dsimp only
    rw [if_neg hbinds]
    exact if_pos hlast
  | case7 s segment address slot hslot delta hbinds hdelta u r hr _ ih =>
    intro hrest
    rw [follow_eq, hslot' hslot]
    dsimp only
    rw [if_neg hbinds, if_neg hdelta, show Registers.advance space (slot.distance * 8) position
      (s.withDefaults d).registers = _ from Registers.advance_ok_withDefaults hr]
    exact ih hrest
  | case8 s segment address slot hslot ended delta hbinds hdelta error r hr => exact Effect.fail_liftsTo _

theorem followInContext_liftsTo (c : Context) (d : Registers) (s : State) :
    (c.follow position s).LiftsTo (State.withDefaults d) (c.follow position (s.withDefaults d)) := by
  unfold Context.follow
  cases c.image with
  | none => exact Effect.fail_liftsTo _
  | some found => exact follow_liftsTo found.1 found.2 d s

/-! ### Opcodes -/

theorem resume_liftsTo (c : Context) (d : Registers) (s : State) :
    (resume c s).LiftsTo (State.withDefaults d) (resume c (s.withDefaults d)) := by
  have hpending : (s.withDefaults d).pending = s.pending := rfl
  unfold resume
  rw [hpending]
  cases s.pending with
  | nothing => exact fun _ => rfl
  | run run => exact emit_liftsTo s run.tail? _ (fun _ => actionAt_withDefaults) _
  | chain position => exact followInContext_liftsTo c d s

theorem act_liftsTo (c : Context) (d : Registers) (op : Op) (s : State) :
    (act c position op s).LiftsTo (State.withDefaults d)
      (act c position op (s.withDefaults d)) := by
  have hemit (delta : Nat) :
      (emitThenAdvance c.space (s.of none) (actionAt c.space position) delta position
        s.registers).LiftsTo (State.withDefaults d)
        (emitThenAdvance c.space ((s.withDefaults d).of none) (actionAt c.space position) delta
          position (withDefaults d s.registers)) :=
    emit_liftsTo s none _ (fun _ => actionAt_withDefaults) delta
  cases op with
  | setOrdinal ordinal => exact fun _ => rfl
  | setSymbol symbol flags => exact fun _ => rfl
  | setKind kind => exact fun _ => rfl
  | setAddend addend => exact fun _ => rfl
  | setSegment index offset =>
    exact update_liftsTo s fun _ _ => Registers.setSegment_ok_withDefaults
  | advance delta =>
    exact update_liftsTo s fun _ _ => Registers.advance_ok_withDefaults
  | emit =>
    have htable : (s.withDefaults d).table = s.table := rfl
    unfold act
    dsimp only
    rw [htable]
    cases s.table with
    | none => exact hemit _
    | some table =>
      dsimp only
      cases hentry : entryAt position s.registers with
      | error e => exact Effect.fail_liftsTo _
      | ok entry =>
        intro _
        rw [show entryAt position (s.withDefaults d).registers = _ from entryAt_withDefaults hentry]
        rfl
  | emitThenAdvance delta => exact hemit _
  | emitThenAdvanceScaled count => exact hemit _
  | emitTimesSkipping count skip =>
    unfold act Run.start
    dsimp only
    split
    · exact Effect.fail_liftsTo _
    · split
      · exact fun _ => rfl
      · exact emit_liftsTo s _ _ (fun _ => actionAt_withDefaults) _
  | startTable size => exact fun _ => rfl
  | followChain => exact followInContext_liftsTo c d { s with pending := .chain position }

/-- **Where an opcode finds the registers set that it needs, it does the same when others are set as
well.** -/
theorem lifts_withDefaults (c : Context) (d : Registers) :
    Opcode.Lifts c (State.withDefaults d) where
  resume s := resume_liftsTo c d s
  act _ op s := act_liftsTo c d op s

/-! ### DONE -/

/-- Zeros are read as DONE. -/
theorem read_zero (pos : Nat) (rest : Bytes) :
    opcodes.read ⟨pos, 0 :: rest⟩ = .ok none ⟨pos + 1, rest⟩ := rfl

/-- Where DONE does nothing, zeros do nothing. -/
theorem ofCursor_zeros (pos : Nat) {rest : Bytes} (h : ∀ b ∈ rest, b = 0) :
    Program.ofCursor opcodes .ignored ⟨pos, rest⟩ = ⟨[], none⟩ := by
  induction rest generalizing pos with
  | nil =>
    rw [Program.ofCursor, if_pos (by rfl)]
    rfl
  | cons b rest ih =>
    obtain ⟨rfl, hrest⟩ := List.forall_mem_cons.1 h
    have hend : ¬(Cursor.mk pos (0 :: rest)).atEnd := by simp [Cursor.atEnd]
    rw [Program.ofCursor_of_done hend (read_zero pos rest), if_pos rfl]
    exact ih (pos + 1) hrest

/-- Where DONE ends a stream without a failure, only zeros follow it, so that the stream is the same
where DONE does nothing. -/
theorem ofCursor_ignored {c : Cursor}
    (h : (Program.ofCursor opcodes .required c).ending = none) :
    Program.ofCursor opcodes .ignored c = Program.ofCursor opcodes .required c := by
  fun_induction Program.ofCursor opcodes .required c with
  | case1 c hend =>
    have h : Program.exhausted .required c.pos = none := h
    rw [Program.ofCursor, if_pos hend, h]
    rfl
  | case2 c hend e c' hread => cases h
  | case3 c hend c' hread hrule => cases hrule
  | case4 c hend c' hread hrule =>
    have h : Program.done .required c' = none := h
    have hall : c'.rest.all (· == 0) = true := by
      by_contra hall
      rw [Program.done, if_neg hall] at h
      cases h
    have hzeros : ∀ b ∈ c'.rest, b = 0 := by simpa using hall
    rw [Program.ofCursor_of_done hend hread, if_pos rfl, h]
    exact ofCursor_zeros c'.pos hzeros
  | case5 c hend op c' hread _ rest ih =>
    rw [Program.ofCursor_of_op hend hread, ih h]

/-! ### Streams -/

/-- Only the defaults of a stream depend on its kind, when DONE ends it without a failure. -/
theorem stream_eq_mapState (kind : StreamKind) {bytes : Bytes} (c : Context) (limit : Option Nat)
    (h : (Program.ofBytes opcodes .required bytes).ending = none) :
    stream kind bytes c limit =
      (stream .normal bytes c limit).mapState (State.withDefaults kind.registers) := by
  unfold stream OpcodeStream.mapState OpcodeStream.ofProgram
  cases kind with
  | normal => rfl
  | weak => rfl
  | lazy =>
    show OpcodeStream.mk c (Program.ofBytes opcodes .ignored bytes).code
      (Program.ofBytes opcodes .ignored bytes).ending _ _ _ _ _ = _
    rw [show Program.ofBytes opcodes .ignored bytes = _ from ofCursor_ignored h]
    rfl

/-- **The kinds of bind streams differ only in their defaults and in DONE**: what a normal stream
yields without a failure, any other one yields over the same bytes, in the same order and with the
same fields, and does not fail either. -/
theorem toList_stream_of_clean (bytes : Bytes) (c : Context) (limit : Option Nat)
    (hclean : ∀ e, .error e ∉ Source.toList (stream .normal bytes c limit)) (kind : StreamKind) :
    Source.toList (stream kind bytes c limit) =
      (Source.values (stream .normal bytes c limit)).map .ok := by
  have hending := OpcodeStream.ending_eq_none_of_clean (stream .normal bytes c limit) rfl hclean
  have hother := OpcodeStream.toList_mapState (stream .normal bytes c limit)
    (lifts_withDefaults c kind.registers) hclean
  obtain ⟨failure, hvalues⟩ := Source.exists_toList_eq (stream .normal bytes c limit)
  rw [stream_eq_mapState kind c limit hending, hother]
  cases failure with
  | none => rw [hvalues, Option.map_none, Option.toList_none, List.append_nil]
  | some e =>
    refine (hclean e ?_).elim
    rw [hvalues]
    simp

/-- A table of one symbol and a chain of one slot that names it, with two zeros behind DONE. -/
theorem toList_stream_of_chain :
    let bytes : Bytes := [0x11, 0x40, 95, 97, 0, 0x51, 0xd0, 1, 0x90, 0x70, 8, 0xd1, 0, 0, 0]
    let image : Bytes := List.replicate 15 0 ++ [0x40] ++ List.replicate 16 0
    let c : Context := ⟨exampleSpace, some (image, .little)⟩
    let a : Action := ⟨0, 8, 0x1008, "_a", 1, .pointer, 0, 0, 11⟩
    (∀ e, .error e ∉ Source.toList (stream .normal bytes c none)) ∧
      Source.toList (stream .weak bytes c none) = [.ok a] ∧
      Source.toList (stream .lazy bytes c none) = [.ok a] := by
  intro bytes image c a
  have hlist : Source.toList (stream .normal bytes c none) = [.ok a] := by decide +kernel
  have hclean : ∀ e, .error e ∉ Source.toList (stream .normal bytes c none) := by
    rw [hlist]
    simp
  have hvalues : Source.values (stream .normal bytes c none) = [a] := by
    rw [Source.values, hlist]
    rfl
  have hkinds := toList_stream_of_clean bytes c none hclean
  rw [hvalues] at hkinds
  exact ⟨hclean, hkinds .weak, hkinds .lazy⟩

end Bind

end MachO
