import MachO.Proofs.Actions
import MachO.Proofs.Bind.Eager
import MachO.Proofs.Bind.Written

/-!
# Writing bind streams

* `Bind.Record`: a bind that is to be written, with `Bind.Record.Valid` for what can be written;
* `Bind.Record.write`, `Bind.program`: the opcodes of one record, and of a list of records;
* `Bind.Record.Valid.interpret_write`: one record emits its action, whatever registers it starts with;
* `Bind.toList_stream_program`: what is read from the opcodes of records are those records.
-/

namespace MachO

/-- An opcode is run once it is read from its bytes. -/
theorem Eager.interpret_of_readsBack {Op Machine Action : Type} {ops : OpcodeSet Op}
    {rule : DoneRule} {denote : (position : Nat) → Op → Machine → Outcome Action Machine}
    {op : Op} {bs : Bytes} (h : ReadM.ReadsBack ops.read (some op) bs) (position : Nat)
    (rest : Bytes) (m : Machine) :
    interpret ops rule denote ⟨position, bs ++ rest⟩ m =
      denote position op m >>= interpret ops rule denote ⟨position + bs.length, rest⟩ := by
  have hread := h position rest
  have hlt := ops.moves_read.length_lt hread
  refine interpret_of_op (fun hend => ?_) hread m
  rw [List.isEmpty_iff.1 hend] at hlt
  cases hlt

namespace Bind

open MachO.Eager (interpret)

/-- A bind that is to be written. -/
structure Record where
  segment : UInt8
  offset : Nat
  symbol : String
  flags : UInt8
  ordinal : Int
  addend : Int
  kind : WriteKind
  deriving DecidableEq, Repr

/-- The immediate that stands for a kind.  Pointers with an authentication code have none. -/
def immediateOf : WriteKind → UInt8
  | .pointer => 1
  | .textAbsolute32 => 2
  | .textPcRel32 => 3
  | .authenticated => 0

theorem ofImmediate?_immediateOf {kind : WriteKind} (h : kind ≠ .authenticated) :
    WriteKind.ofImmediate? (immediateOf kind) = some kind := by
  cases kind with
  | authenticated => exact (h rfl).elim
  | _ => rfl

theorem immediateOf_lt (kind : WriteKind) : (immediateOf kind).toNat < 16 := by
  cases kind <;> decide

/-- The immediate of the ordinal of a special look-up. -/
def specialImmediate (ordinal : Int) : UInt8 := UInt8.ofNat (ordinal + 16).toNat

theorem toNat_specialImmediate {ordinal : Int} (hlow : -3 ≤ ordinal) (hhigh : ordinal < 0) :
    (specialImmediate ordinal).toNat = (ordinal + 16).toNat := Leb128.toNat_ofNat (by omega)

theorem specialOrdinal?_specialImmediate {ordinal : Int} (hlow : -3 ≤ ordinal)
    (hhigh : ordinal < 0) :
    specialOrdinal? (specialImmediate ordinal).toNat = some ordinal := by
  rw [toNat_specialImmediate hlow hhigh, specialOrdinal?, if_neg (by omega), if_pos (by omega)]
  congr 1
  omega

namespace Record

/-- What can be written of a bind in an address space: all bytes of its slot are in the segment. -/
structure Valid (space : AddressSpace) (r : Record) : Prop where
  segment_lt : r.segment.toNat < 16
  slot : ∃ s, space.segments[r.segment.toNat]? = some s ∧
    r.offset + space.width.pointerSize ≤ s.memory.size
  symbol : IsName r.symbol
  flags_lt : r.flags.toNat < 16
  ordinal_ge : -3 ≤ r.ordinal
  ordinal_lt : r.ordinal < 2 ^ 63
  addend_ge : -2 ^ 63 ≤ r.addend
  addend_lt : r.addend < 2 ^ 63
  kind : r.kind ≠ .authenticated

/-- The opcode that sets the ordinal. -/
def ordinalOpcode (r : Record) : Bytes :=
  if 0 ≤ r.ordinal then opcodeByte 2 0 :: Leb128.ofNat r.ordinal.toNat
  else [opcodeByte 3 (specialImmediate r.ordinal)]

/-- The opcode that sets the symbol. -/
def symbolOpcode (r : Record) : Bytes :=
  opcodeByte 4 r.flags :: (Text.Utf8.encode r.symbol ++ [0])

/-- The opcodes that set all registers. -/
def settings (r : Record) : Bytes :=
  r.ordinalOpcode ++ r.symbolOpcode ++ [opcodeByte 5 (immediateOf r.kind)] ++
    (opcodeByte 6 0 :: Leb128.ofInt r.addend) ++
    (opcodeByte 7 r.segment :: Leb128.ofNat r.offset)

/-- The opcodes that set all registers and then emit. -/
def write (r : Record) : Bytes := r.settings ++ [opcodeByte 9 0]

/-- The registers that are set. -/
def registers (r : Record) : Registers where
  ordinal := some r.ordinal
  symbol := some r.symbol
  symbolFlags := r.flags
  kind := some r.kind
  addend := r.addend
  segment := some r.segment.toNat
  offset := r.offset

/-- The address of the slot: its place, counted from the start of its segment. -/
def address (space : AddressSpace) (r : Record) : Nat :=
  match space.segments[r.segment.toNat]? with
  | some s => s.memory.start + r.offset
  | none => 0

/-- The action of a record, when the opcode that emits has the given position. -/
def action (space : AddressSpace) (position : Nat) (r : Record) : Action where
  segment := r.segment.toNat
  offset := r.offset
  address := r.address space
  symbol := r.symbol
  ordinal := r.ordinal
  kind := r.kind
  addend := r.addend
  flags := r.flags
  position

/-- The actions of records that are written one behind the other from a position on. -/
def actions (space : AddressSpace) : (position : Nat) → List Record → List Action
  | _, [] => []
  | position, r :: records =>
    r.action space (position + r.settings.length) ::
      actions space (position + r.write.length) records

variable {space : AddressSpace} {r : Record}

theorem ordinalOpcode_written (hlow : -3 ≤ r.ordinal) (hhigh : r.ordinal < 2 ^ 63) :
    Op.Written (.setOrdinal r.ordinal) r.ordinalOpcode := by
  unfold ordinalOpcode
  split
  · rename_i hordinal
    have hlt : r.ordinal.toNat < 2 ^ 63 := by omega
    have hdigits := Leb128.unsigned_ofNat (Nat.lt_trans hlt (by decide))
    have hwritten := Op.Written.ordinal hdigits hlt
    rwa [Int.toNat_of_nonneg hordinal] at hwritten
  · have himm : (specialImmediate r.ordinal).toNat < 16 := by
      rw [toNat_specialImmediate hlow (by omega)]
      omega
    exact .specialOrdinal himm (specialOrdinal?_specialImmediate hlow (by omega))

theorem base_registers {s : Segment} (hs : space.segments[r.segment.toNat]? = some s) :
    r.registers.base space = s.memory.start := Registers.base_of_segment rfl hs

theorem address_eq {s : Segment} (hs : space.segments[r.segment.toNat]? = some s) :
    r.address space = s.memory.start + r.offset := by
  unfold address
  rw [hs]

section Build

variable {width : Width} {imageSize : Nat} {commands : List SegmentCommand}
  (hbuild : AddressSpace.build width imageSize commands = .ok space) (hr : r.Valid space)
  (image : Option (Bytes × Endian)) (rule : DoneRule) (position : Nat) (rest : Bytes)
include hbuild hr

/-- The place behind the slot of a record is still one that registers can hold. -/
theorem Valid.room : r.offset + space.width.pointerSize < UInt64.size ∧
    r.registers.base space + (r.offset + space.width.pointerSize) ≤ space.width.span := by
  obtain ⟨s, hs, hslot⟩ := hr.slot
  have hpointer := space.width.pointerSize_pos
  rw [base_registers hs]
  exact AddressSpace.room_of_build hbuild hs (ByteRange.not_isEmpty_of_pos (by omega)) hslot

/-- The place of a record can be set. -/
theorem Valid.setSegment (registers : Registers) :
    Registers.setSegment space r.segment r.offset position registers =
      .ok () { registers with segment := some r.segment.toNat, offset := r.offset } := by
  obtain ⟨s, hs, hslot⟩ := hr.slot
  have hpointer := space.width.pointerSize_pos
  exact Registers.setSegment_inside hbuild hs (ByteRange.not_isEmpty_of_pos (by omega)) (by omega)
    position registers

/-- All registers of a record make its action. -/
theorem Valid.actionAt :
    actionAt space position r.registers = .ok (r.action space position) := by
  obtain ⟨s, hs, hslot⟩ := hr.slot
  have hpointer := space.width.pointerSize_pos
  have hroom := hr.room hbuild
  rw [base_registers hs] at hroom
  have hresolve : space.resolve r.segment.toNat r.offset = .ok (r.address space) :=
    AddressSpace.resolve_eq_ok_iff.2 ⟨s, hs, by omega, by omega, address_eq hs⟩
  have htarget : r.registers.target space position = .ok (r.segment.toNat, r.address space) :=
    Registers.target_eq_ok_iff.2 ⟨rfl, hresolve⟩
  unfold Bind.actionAt
  dsimp only [registers]
  rw [← registers, htarget]
  rfl

/-! ### Running the opcodes -/

/-- The opcodes that set registers set all of them, whatever they were. -/
theorem Valid.interpret_settings (registers : Registers) (table : Option (Array Entry)) :
    interpret opcodes rule (Eager.denote ⟨space, image⟩) ⟨position, r.settings ++ rest⟩
        ⟨registers, table⟩ =
      interpret opcodes rule (Eager.denote ⟨space, image⟩)
        ⟨position + r.settings.length, rest⟩ ⟨r.registers, table⟩ := by
  have hroom := hr.room hbuild
  have hordinal := (ordinalOpcode_written hr.ordinal_ge hr.ordinal_lt).readsBack
  have hsymbol := (Op.Written.symbol hr.flags_lt hr.symbol).readsBack
  have hkind := (Op.Written.kind (immediateOf_lt r.kind)
    (ofImmediate?_immediateOf hr.kind)).readsBack
  have haddend := (Op.Written.addend
    (Leb128.signed_ofInt hr.addend_ge hr.addend_lt)).readsBack
  have hsegment := (Op.Written.segment hr.segment_lt
    (Leb128.unsigned_ofNat (n := r.offset) (by omega))).readsBack
  unfold settings symbolOpcode
  simp only [List.append_assoc, List.length_append, ← Nat.add_assoc]
  -- The opcodes are read one after the other, and only the last one looks at the address space.
  refine (Eager.interpret_of_readsBack hordinal _ _ _).trans ?_
  refine (Eager.interpret_of_readsBack hsymbol _ _ _).trans ?_
  refine (Eager.interpret_of_readsBack hkind _ _ _).trans ?_
  refine (Eager.interpret_of_readsBack haddend _ _ _).trans ?_
  refine (Eager.interpret_of_readsBack hsegment _ _ _).trans ?_
  unfold Eager.denote
  dsimp only
  rw [Outcome.ofUpdate_of_ok (hr.setSegment hbuild _ _)]
  rfl

/-- One record emits its action, whatever registers it starts with. -/
theorem Valid.interpret_write (registers : Registers) :
    ∃ registers' : Registers,
      interpret opcodes rule (Eager.denote ⟨space, image⟩) ⟨position, r.write ++ rest⟩
          ⟨registers, none⟩ = (do
        .emit (r.action space (position + r.settings.length))
        interpret opcodes rule (Eager.denote ⟨space, image⟩) ⟨position + r.write.length, rest⟩
          ⟨registers', none⟩) := by
  have hroom := hr.room hbuild
  have hadvance : Registers.advance space space.width.pointerSize
      (position + r.settings.length) r.registers =
      .ok () { r.registers with offset := r.offset + space.width.pointerSize } :=
    Registers.advance_eq_ok_iff.2 ⟨hroom.1, hroom.2, rfl⟩
  refine ⟨{ r.registers with offset := r.offset + space.width.pointerSize }, ?_⟩
  rw [write, List.append_assoc, hr.interpret_settings hbuild, List.length_append,
    Eager.interpret_of_readsBack Op.Written.emit.readsBack, ← Nat.add_assoc]
  unfold Eager.denote
  dsimp only
  rw [Eager.slot_of_ok (hr.actionAt hbuild _) hadvance, bind_map_left, bind_assoc]
  rfl

omit hr in
/-- Records that are written one behind the other emit their actions. -/
theorem interpret_flatMap_write {records : List Record} (hrecords : ∀ r ∈ records, r.Valid space)
    (registers : Registers) :
    ∃ position' registers',
      (interpret opcodes rule (Eager.denote ⟨space, image⟩)
          ⟨position, records.flatMap write ++ rest⟩ ⟨registers, none⟩).items =
        (actions space position records).map .ok ++
          (interpret opcodes rule (Eager.denote ⟨space, image⟩) ⟨position', rest⟩
            ⟨registers', none⟩).items := by
  induction records generalizing position registers with
  | nil => exact ⟨position, registers, rfl⟩
  | cons r records ih =>
    rw [List.forall_mem_cons] at hrecords
    obtain ⟨registers₁, hfirst⟩ := hrecords.1.interpret_write hbuild image rule position
      (records.flatMap write ++ rest) registers
    obtain ⟨position', registers', hmore⟩ := ih (position + r.write.length) hrecords.2 registers₁
    refine ⟨position', registers', ?_⟩
    rw [List.flatMap_cons, List.append_assoc, hfirst, Outcome.items_emit_bind, hmore]
    rfl

end Build

end Record

/-- The opcodes of records, with DONE behind them. -/
def program (records : List Record) : Bytes := records.flatMap Record.write ++ [0]

/-- DONE ends a stream of each kind, when nothing follows it. -/
theorem interpret_done (kind : StreamKind) (c : Context) (position : Nat) (m : Machine) :
    interpret opcodes kind.doneRule (Eager.denote c) ⟨position, [0]⟩ m =
      .ofEnding none := by
  have hread : opcodes.read ⟨position, [0]⟩ = .ok none ⟨position + 1, []⟩ := rfl
  have hend : ¬(⟨position, [0]⟩ : Cursor).atEnd := nofun
  rw [Eager.interpret_of_done hend hread]
  cases kind with
  | lazy => exact Eager.interpret_of_atEnd rfl m
  | _ => rfl

/-- **Records that are written to a bind stream are read from it**, each with the address of its
slot, in the same order and without a failure. -/
theorem toList_stream_program {width : Width} {imageSize : Nat} {commands : List SegmentCommand}
    {space : AddressSpace} (h : AddressSpace.build width imageSize commands = .ok space)
    {records : List Record} (hrecords : ∀ r ∈ records, r.Valid space) (kind : StreamKind)
    (image : Option (Bytes × Endian)) :
    Source.toList (stream kind (program records) ⟨space, image⟩ none) =
      (Record.actions space 0 records).map .ok := by
  rw [OpcodeStream.toList_eq_items _ rfl rfl rfl, outcome_stream]
  obtain ⟨position', registers', hitems⟩ :=
    Record.interpret_flatMap_write h image kind.doneRule 0 [0] hrecords kind.registers
  show (interpret opcodes kind.doneRule (Eager.denote ⟨space, image⟩)
    ⟨0, program records⟩ ⟨kind.registers, none⟩).items = _
  rw [program, hitems, interpret_done]
  exact List.append_nil _

/-- Two binds, one to the first library and one to any library, the second in the last slot of its
segment. -/
theorem toList_stream_program_two :
    let records : List Record :=
      [⟨0, 8, "_a", 0, 1, -1, .pointer⟩, ⟨0, 24, "_b", 1, -2, 300, .textAbsolute32⟩]
    AddressSpace.build .bits64 32 [exampleCommand] = .ok exampleSpace ∧
      (∀ r ∈ records, r.Valid exampleSpace) ∧
      Source.toList (stream .lazy (program records) ⟨exampleSpace, none⟩ none) =
        [.ok ⟨0, 8, 0x1008, "_a", 1, .pointer, -1, 0, 11⟩,
          .ok ⟨0, 24, 0x1018, "_b", -2, .textAbsolute32, 300, 1, 23⟩] := by
  intro records
  have hbuild : AddressSpace.build .bits64 32 [exampleCommand] = .ok exampleSpace := rfl
  have hrecords : ∀ r ∈ records, r.Valid exampleSpace := by
    intro r hr
    rcases List.mem_pair.1 hr with rfl | rfl
    · exact ⟨by decide, ⟨_, rfl, by decide⟩, ⟨by decide, by decide⟩, by decide, by decide,
        by decide, by decide, by decide, by decide⟩
    · exact ⟨by decide, ⟨_, rfl, by decide⟩, ⟨by decide, by decide⟩, by decide, by decide,
        by decide, by decide, by decide, by decide⟩
  have hactions : (Record.actions exampleSpace 0 records).map Except.ok =
      ([.ok ⟨0, 8, 0x1008, "_a", 1, .pointer, -1, 0, 11⟩,
        .ok ⟨0, 24, 0x1018, "_b", -2, .textAbsolute32, 300, 1, 23⟩] :
        List (Except DecodeError Action)) := by
    decide +kernel
  exact ⟨hbuild, hrecords, (toList_stream_program hbuild hrecords .lazy none).trans hactions⟩

end Bind

end MachO
