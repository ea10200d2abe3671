/-!
# Hexadecimal numerals

Offsets, addresses and magic numbers are written in base 16 with lower-case digits.

* `hex`: the shortest numeral, behind `0x`;
* `hexPadded`: the same with zeros in front up to a least number of digits;
* `hexByte`: the two digits of a byte, without `0x`.
-/

namespace MachO.Text

/-- The digits of a number in base 16, with zeros in front up to `width` digits. -/
def hexDigits (width n : Nat) : String :=
  let digits := Nat.toDigits 16 n
  String.ofList (List.replicate (width - digits.length) '0' ++ digits)

/-- The shortest base 16 numeral of a number, such as `0x1f`. -/
def hex (n : Nat) : String := "0x" ++ hexDigits 1 n

/-- The base 16 numeral of a number with at least `width` digits, such as `0x001f`. -/
def hexPadded (width n : Nat) : String := "0x" ++ hexDigits width n

/-- The two base 16 digits of a byte. -/
def hexByte (b : UInt8) : String := hexDigits 2 b.toNat

end MachO.Text
