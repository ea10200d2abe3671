import MachO.Bytes

/-!
# UTF-8 text

Names inside an image are UTF-8.  Load commands and bind opcodes refuse bytes that are not;
export names keep what can be read of them.

* `decode?`: the text of a byte string, when all of it is UTF-8;
* `decodeLossy`: the text of any byte string, in which every longest start of a character that the
  next byte does not continue, and every byte that starts none, is replaced by U+FFFD.
-/

namespace MachO.Text.Utf8

/-- The text of a byte string, when it is UTF-8. -/
def decode? (bytes : Bytes) : Option String :=
  String.fromUTF8? ⟨bytes.toArray⟩

theorem utf8ByteSize_of_decode? {bytes : Bytes} {s : String} (h : decode? bytes = some s) :
    s.utf8ByteSize = bytes.length := by
  unfold decode? String.fromUTF8? at h
  split at h
  · cases h
    rfl
  · cases h

/-- What stands for bytes that are not part of a character. -/
def replacement : Char := '\ufffd'

/-- A character of which some bytes were read: its bits so far, the number of bytes still to come,
and the bounds of the next one. -/
structure Open where
  bits : Nat
  missing : Nat
  low : Nat
  high : Nat

/-- Where a reader of UTF-8 stands: between two characters, or inside one. -/
inductive State
  | between
  | inside (o : Open)

/-- The first byte of a character, read between two characters.  A second byte that would make the
character too short for its length, a surrogate or too large is ruled out by the bounds. -/
def first (b : UInt8) : List Char × State :=
  let n := b.toNat
  if n < 0x80 then ([Char.ofNat n], .between)
  else if n < 0xc2 then ([replacement], .between)
  else if n < 0xe0 then ([], .inside ⟨n - 0xc0, 1, 0x80, 0xbf⟩)
  else if n = 0xe0 then ([], .inside ⟨0, 2, 0xa0, 0xbf⟩)
  else if n = 0xed then ([], .inside ⟨0xd, 2, 0x80, 0x9f⟩)
  else if n < 0xf0 then ([], .inside ⟨n - 0xe0, 2, 0x80, 0xbf⟩)
  else if n = 0xf0 then ([], .inside ⟨0, 3, 0x90, 0xbf⟩)
  else if n < 0xf4 then ([], .inside ⟨n - 0xf0, 3, 0x80, 0xbf⟩)
  else if n = 0xf4 then ([], .inside ⟨4, 3, 0x80, 0x8f⟩)
  else ([replacement], .between)

/-- One byte: the characters that it completes, and where the reader stands after it. -/
def step : State → UInt8 → List Char × State
  | .between, b => first b
  | .inside o, b =>
    if o.low ≤ b.toNat ∧ b.toNat ≤ o.high then
      let bits := o.bits * 64 + b.toNat % 64
      if o.missing ≤ 1 then ([Char.ofNat bits], .between)
      else ([], .inside ⟨bits, o.missing - 1, 0x80, 0xbf⟩)
    else
      let (chars, state) := first b
      (replacement :: chars, state)

/-- The characters that the bytes complete, and the replacement of one that they leave open. -/
def chars : State → Bytes → List Char
  | .between, [] => []
  | .inside _, [] => [replacement]
  | state, b :: bs =>
    let (done, state) := step state b
    done ++ chars state bs

/-- The text of a byte string, with U+FFFD for what is not UTF-8. -/
def decodeLossy (bytes : Bytes) : String :=
  String.ofList (chars .between bytes)

end MachO.Text.Utf8
