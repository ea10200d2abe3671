import MachO.Bytes
import MachO.Text.Hex

/-!
# UUIDs

* `uuid`: the text of a UUID, such as `12345678-9ABC-DEF0-0123-456789ABCDEF`.
-/

namespace MachO.Text

/-- The two base 16 digits of each byte, in upper case. -/
def upperHex (bytes : Bytes) : String := String.join (bytes.map fun b => (hexByte b).toUpper)

/-- The parts of a byte string of the given sizes, and the rest. -/
def groups : List Nat → Bytes → List Bytes
  | [], bytes => [bytes]
  | size :: sizes, bytes => bytes.take size :: groups sizes (bytes.drop size)

/-- The text of a UUID of sixteen bytes: groups of four, two, two, two and six bytes. -/
def uuid (bytes : Bytes) : String := "-".intercalate ((groups [4, 2, 2, 2] bytes).map upperHex)

end MachO.Text
