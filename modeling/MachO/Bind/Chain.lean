import MachO.Cursor
import MachO.Opcode.Emit
import MachO.Stream.Dedup

/-!
# Chains of slots

In a chain, a slot itself tells what is bound there and how far the next slot is.

* `Bind.Action`: one slot that has to be filled with the address of a symbol;
* `Bind.Context`, `Bind.State`: what bind opcodes work on;
* `Bind.Slot`: what the eight bytes of a slot in a chain tell;
* `Bind.follow`: follows a chain to the next slot that binds.
-/

namespace MachO.Bind

/-- A slot that has to be filled with the address of a symbol. -/
structure Action where
  segment : Nat
  offset : Nat
  address : Nat
  symbol : String
  /-- The library of the symbol, or a negative number or zero for a special look-up. -/
  ordinal : Int
  kind : WriteKind
  addend : Int
  flags : UInt8
  /-- The position of the opcode that emits the action. -/
  position : Nat
  deriving DecidableEq, Repr

instance : Addressed Action := ⟨Action.address⟩

/-- Whether the symbol may be missing: bit 0 of its flags. -/
def Action.isWeakImport (a : Action) : Bool := a.flags &&& 1 != 0

/-- What bind opcodes are run in.  The bytes of the image are needed for chains of slots only. -/
structure Context where
  space : AddressSpace
  image : Option (Bytes × Endian)
  deriving DecidableEq, Repr

/-- A symbol that the slots of chains can name. -/
structure Entry where
  symbol : String
  ordinal : Int
  flags : UInt8
  addend : Int
  deriving DecidableEq, Repr

/-- What is left of a suspended opcode. -/
inductive Pending
  | nothing
  | run (run : Run)
  /-- The rest of a chain, which the opcode at a position follows. -/
  | chain (position : Nat)
  deriving DecidableEq, Repr

/-- The registers, the table of symbols if one was begun, and what is left of a suspended
opcode. -/
structure State where
  registers : Registers
  table : Option (Array Entry)
  pending : Pending
  deriving DecidableEq, Repr

/-- The symbols of the table, none when no table was begun. -/
def State.entries (s : State) : Array Entry := s.table.getD #[]

/-- What the eight bytes of a slot in a chain tell. -/
structure Slot where
  /-- The distance to the next slot in units of eight bytes; zero in the last slot. -/
  distance : Nat
  /-- Whether a symbol is bound.  Other slots hold pointers to be moved with the image. -/
  binds : Bool
  /-- The index of the symbol in the table. -/
  index : Nat
  /-- Whether the pointer has an authentication code. -/
  authenticated : Bool
  deriving DecidableEq, Repr

/-- The parts of a slot: its low sixteen bits, the eleven bits from bit 51, and the two top bits. -/
def Slot.ofWord (word : UInt64) : Slot where
  distance := (word.toNat >>> 51) % 2048
  binds := word.toNat.testBit 62
  index := word.toNat % UInt16.size
  authenticated := word.toNat.testBit 63

/-- How a slot that binds is written. -/
def Slot.kind (slot : Slot) : WriteKind :=
  if slot.authenticated then .authenticated else .pointer

/-- The segment and the address of the current place, and the slot there, which is read from the
image. -/
def slotAt (space : AddressSpace) (image : Bytes) (e : Endian) (position : Nat) (r : Registers) :
    Except DecodeError (Nat × Nat × Slot) := do
  let (segment, address) ← r.target space position
  match space.fileOffset address with
  | .error _ => throw (.slotOutOfBounds position)
  | .ok offset =>
    let word ← (ReadM.u64 e).runAt image offset
    return (segment, address, Slot.ofWord word)

/-- Follows the chain from the current place to the next slot that binds, or to its end. -/
def follow (space : AddressSpace) (image : Bytes) (e : Endian) (position : Nat) (s : State) :
    Effect State Action :=
  match slotAt space image e position s.registers with
  | .error error => .fail error s
  | .ok (segment, address, slot) =>
    let ended := fun r => { s with registers := r, pending := .nothing }
    let delta := slot.distance * 8
    if slot.binds then
      match s.entries[slot.index]? with
      | none => .fail (.badTableIndex position slot.index s.entries.size) s
      | some entry =>
        let action : Action :=
          { segment, offset := s.registers.offset, address, symbol := entry.symbol
            ordinal := entry.ordinal, kind := slot.kind, addend := entry.addend
            flags := entry.flags, position }
        if delta = 0 then .emit action none (ended s.registers)
        else
          match Registers.advance space delta position s.registers with
          | .ok _ r => .emit action none { s with registers := r, pending := .chain position }
          | .error error r => .emit action (some error) (ended r)
    else if hdelta : delta = 0 then .proceed (ended s.registers)
    else
      match h : Registers.advance space delta position s.registers with
      | .ok _ r =>
        have := Registers.span_sub_offset_lt h (Nat.pos_of_ne_zero hdelta)
        follow space image e position { s with registers := r }
      | .error error r => .fail error (ended r)
termination_by space.width.span - s.registers.offset

/-- One slot of a chain, and the rest of the chain behind it. -/
theorem follow_eq (space : AddressSpace) (image : Bytes) (e : Endian) (position : Nat) (s : State) :
    follow space image e position s =
      match slotAt space image e position s.registers with
      | .error error => .fail error s
      | .ok (segment, address, slot) =>
        let ended := fun r => { s with registers := r, pending := .nothing }
        if slot.binds then
          match s.entries[slot.index]? with
          | none => .fail (.badTableIndex position slot.index s.entries.size) s
          | some entry =>
            let action : Action :=
              { segment, offset := s.registers.offset, address, symbol := entry.symbol
                ordinal := entry.ordinal, kind := slot.kind, addend := entry.addend
                flags := entry.flags, position }
            if slot.distance * 8 = 0 then .emit action none (ended s.registers)
            else
              match Registers.advance space (slot.distance * 8) position s.registers with
              | .ok _ r => .emit action none { s with registers := r, pending := .chain position }
              | .error error r => .emit action (some error) (ended r)
        else if slot.distance * 8 = 0 then .proceed (ended s.registers)
        else
          match Registers.advance space (slot.distance * 8) position s.registers with
          | .ok _ r => follow space image e position { s with registers := r }
          | .error error r => .fail error (ended r) := by
  rw [follow]
  cases slotAt space image e position s.registers with
  | error error => rfl
  | ok found =>
    obtain ⟨segment, address, slot⟩ := found
    dsimp only
    split
    · rfl
    · split
      · rfl
      · -- The two sides only differ in that one keeps the outcome of the move as a fact.
        split <;> rename_i h <;> rw [h]

/-- Follows a chain, for which the bytes of the image are needed. -/
def Context.follow (c : Context) (position : Nat) (s : State) : Effect State Action :=
  match c.image with
  | none => .fail (.slotOutOfBounds position) s
  | some (image, e) => Bind.follow c.space image e position s

end MachO.Bind
