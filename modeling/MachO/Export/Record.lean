import MachO.Leb128

/-!
# Exported symbols

* `Export.Flags`, `Export.Kind`, `Export.Target`: what is known of an exported symbol besides its
  name;
* `Export.Record`: an exported symbol;
* `Export.Terminal.reader`: reads the terminal information of a trie node.
-/

namespace MachO.Export

/-- The flags of an exported symbol. -/
structure Flags where
  weakDefinition : Bool
  reexport : Bool
  stubAndResolver : Bool
  staticResolver : Bool
  deriving DecidableEq, Repr

/-- The flags in bits 2 to 5 of a number, which has to have no bit beyond. -/
def Flags.ofNat? (n : Nat) : Option Flags :=
  if n < 64 then some ⟨n.testBit 2, n.testBit 3, n.testBit 4, n.testBit 5⟩ else none

/-- The flags as a number, whose low two bits are left to the kind. -/
def Flags.bits (f : Flags) : Nat :=
  4 * f.weakDefinition.toNat + 8 * f.reexport.toNat + 16 * f.stubAndResolver.toNat +
    32 * f.staticResolver.toNat

/-- What kind of value a symbol has that the image defines. -/
inductive Kind
  | regular
  | threadLocal
  | absolute
  deriving DecidableEq, Repr

/-- The kind as a number of two bits, of which one is left over. -/
def Kind.code : Kind → Nat
  | .regular => 0
  | .threadLocal => 1
  | .absolute => 2

/-- The kind in the low two bits of a number. -/
def Kind.ofNat? (n : Nat) : Option Kind :=
  match n % 4 with
  | 0 => some .regular
  | 1 => some .threadLocal
  | 2 => some .absolute
  | _ => none

/-- Where the value of an exported symbol comes from. -/
inductive Target
  /-- The image defines the symbol at an offset.  A resolver function may choose the definition. -/
  | definition (kind : Kind) (offset : Nat) (resolver : Option Nat)
  /-- Another library defines the symbol, possibly with another name. -/
  | reexport (ordinal : Nat) (importedName : Option String)
  deriving DecidableEq, Repr

/-- What a trie node tells of the symbol that ends there. -/
structure Terminal where
  flags : Flags
  target : Target
  deriving DecidableEq, Repr

/-- An exported symbol. -/
structure Record where
  name : String
  flags : Flags
  target : Target
  /-- Where the node of the symbol starts in the trie. -/
  nodeOffset : Nat
  deriving DecidableEq, Repr

/-- Whether other definitions of the symbol go first. -/
def Record.isWeak (r : Record) : Bool := r.flags.weakDefinition

/-- The offset in the image, if the image defines the symbol. -/
def Record.imageOffset? (r : Record) : Option Nat :=
  match r.target with
  | .definition _ offset _ => some offset
  | .reexport _ _ => none

open ReadM (uleb)

/-- Reads where a re-exported symbol comes from.  An empty name stands for the same name. -/
def Target.reexportReader : ReadM Target := do
  let ordinal ← uleb
  let name ← ReadM.terminated
  return .reexport ordinal (if name.isEmpty then none else some (Text.Utf8.decodeLossy name))

/-- Reads where the image defines a symbol. -/
def Target.definitionReader (kind : Kind) (hasResolver : Bool) : ReadM Target := do
  let offset ← uleb
  if hasResolver then return .definition kind offset (some (← uleb))
  else return .definition kind offset none

/-- Reads terminal information, which starts at `position` and takes all bytes that are left. -/
def Terminal.reader (position : Nat) : ReadM Terminal := do
  let word ← uleb
  match Flags.ofNat? word, Kind.ofNat? word with
  | none, _ => throw (.badTerminal position .unknownFlags)
  | some _, none => throw (.badTerminal position .unknownKind)
  | some flags, some kind => do
    ReadM.require (¬(flags.reexport ∧ flags.stubAndResolver))
      (.badTerminal position .reexportWithResolver)
    let target ←
      if flags.reexport then Target.reexportReader
      else Target.definitionReader kind flags.stubAndResolver
    let complete ← ReadM.atEnd
    ReadM.require complete (.badTerminal position .leftover)
    return { flags, target }

end MachO.Export
