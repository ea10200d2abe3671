import MachO.Command.Basic
import MachO.Header

/-!
# The load commands of an image

The load commands lie one behind the other after the header, in a region of the size that the header
states.  Each begins with its code and its size.

* `RawCommand.reader`: reads one load command of a region;
* `Walk`: the load commands up to the first that is malformed, and its failure;
* `Walk.ofImage`: the load commands that a header announces.
-/

namespace MachO

/-- Reads the load command at the cursor, in a region that ends at `stop`. -/
def RawCommand.reader (e : Endian) (stop : Nat) : ReadM RawCommand := do
  let offset ← ReadM.position
  ReadM.require (offset + 8 ≤ stop) (.badCommand offset .headerPastCommands)
  let (code, size) ← ReadM.peek do return (← ReadM.u32 e, ← ReadM.u32 e)
  ReadM.require (8 ≤ size.toNat) (.badCommand offset .sizeBelowHeader)
  ReadM.require (offset + size.toNat ≤ stop) (.badCommand offset .sizePastCommands)
  let data ← ReadM.take size.toNat
  return { offset, code, data }

/-- Load commands, and the failure of the one after them.  Nothing follows a failure: a walk has no
place for commands or for another failure behind it. -/
structure Walk where
  commands : List RawCommand
  fault : Option DecodeError
  deriving DecidableEq, Repr

/-- At most `count` load commands from the cursor on, in a region that ends at `stop`. -/
def Walk.ofCursor (e : Endian) (stop : Nat) : (count : Nat) → Cursor → Walk
  | 0, _ => ⟨[], none⟩
  | count + 1, c =>
    match RawCommand.reader e stop c with
    | .error fault _ => ⟨[], some fault⟩
    | .ok raw c =>
      let rest := Walk.ofCursor e stop count c
      ⟨raw :: rest.commands, rest.fault⟩

/-- The load commands that the header of an image announces.  All of their region has to be
there. -/
def Walk.ofImage (data : Bytes) (header : Header) : Except DecodeError Walk :=
  let stop := header.size + header.commandSize.toNat
  if stop ≤ data.length then
    .ok (Walk.ofCursor header.endian stop header.commandCount.toNat (Cursor.of data header.size))
  else .error (.truncated header.size header.commandSize.toNat)

end MachO
