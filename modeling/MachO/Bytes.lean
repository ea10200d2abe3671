/-!
# Byte strings

Images, export tries and opcode streams are byte strings, seen through the list of their bytes.

* `Bytes`, and `Bytes.slice?` for the bytes of a range that lies inside a byte string;
* `Endian`, the two orders in which the bytes of a word are stored, and `Endian.toNat`, the number
  that a stored word stands for;
* `Width`, the two pointer sizes of an image, with its address limit `Width.span`.
-/

namespace MachO

/-- A byte string. -/
abbrev Bytes := List UInt8

/-- The `size` bytes from `start` on; nothing when they are not all there. -/
def Bytes.slice? (data : Bytes) (start size : Nat) : Option Bytes :=
  if start + size ≤ data.length then some ((data.drop start).take size) else none

theorem Bytes.slice?_eq_some_iff {data out : Bytes} {start size : Nat} :
    data.slice? start size = some out ↔
      start + size ≤ data.length ∧ (data.drop start).take size = out := by
  simp [Bytes.slice?]

theorem Bytes.length_of_slice?_eq_some {data out : Bytes} {start size : Nat}
    (h : data.slice? start size = some out) : out.length = size := by
  obtain ⟨hle, rfl⟩ := Bytes.slice?_eq_some_iff.1 h
  simp only [List.length_take, List.length_drop]
  omega

/-- The order in which the bytes of a word are stored. -/
inductive Endian
  /-- Least significant byte first. -/
  | little
  /-- Most significant byte first. -/
  | big
  deriving DecidableEq, Repr, Inhabited

/-- The number with the given base 256 digits, least significant first. -/
def Bytes.ofDigits : Bytes → Nat
  | [] => 0
  | b :: bs => b.toNat + 256 * Bytes.ofDigits bs

theorem Bytes.ofDigits_lt (bs : Bytes) : Bytes.ofDigits bs < 1 <<< (8 * bs.length) := by
  induction bs with
  | nil => simp [Bytes.ofDigits]
  | cons b bs ih =>
    have hb := b.toNat_lt
    rw [Bytes.ofDigits, List.length_cons, Nat.mul_add, Nat.shiftLeft_add]
    omega

/-- The number that a stored word stands for. -/
def Endian.toNat : Endian → Bytes → Nat
  | .little, bs => Bytes.ofDigits bs
  | .big, bs => Bytes.ofDigits bs.reverse

theorem Endian.toNat_lt (e : Endian) (bs : Bytes) : e.toNat bs < 1 <<< (8 * bs.length) := by
  cases e with
  | little => exact Bytes.ofDigits_lt bs
  | big => simpa [Endian.toNat] using Bytes.ofDigits_lt bs.reverse

/-- The pointer size of an image. -/
inductive Width
  | bits32
  | bits64
  deriving DecidableEq, Repr, Inhabited

/-- The number of bytes of a pointer slot. -/
def Width.pointerSize : Width → Nat
  | .bits32 => 4
  | .bits64 => 8

/-- The number of addresses: one more than the largest address. -/
def Width.span : Width → Nat
  | .bits32 => UInt32.size
  | .bits64 => UInt64.size

theorem Width.pointerSize_pos (w : Width) : 0 < w.pointerSize := by
  cases w <;> decide

theorem Width.pointerSize_lt (w : Width) : w.pointerSize < UInt64.size := by
  cases w <;> decide

theorem Width.span_le (w : Width) : w.span ≤ UInt64.size := by
  cases w <;> decide

end MachO
