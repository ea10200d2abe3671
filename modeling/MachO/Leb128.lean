import MachO.Cursor

/-!
# LEB128 numbers

A LEB128 number is written in base 128, least significant digit first: each byte holds a digit in its
low seven bits, and its high bit tells that another digit follows.

* `ReadM.uleb`: unsigned numbers.  A number has at most ten digits and is below `2 ^ 64`;
* `ReadM.sleb`: signed numbers, in two's complement: the top bit of the last digit is the sign.  A
  number has at most ten digits, and of a longer value the low 64 bits are kept.

A failure names the position of the first digit, and leaves the cursor behind the last byte that was
looked at (`ReadM.ulebFrom_error`, `ReadM.advances_uleb`, and the same for signed numbers).
-/

namespace MachO.ReadM

/-- Reads digit `i` and those after it of an unsigned number, whose lower digits make `value`. -/
def ulebFrom (start : Nat) :
    (i value pos : Nat) → Bytes → EStateM.Result DecodeError Cursor Nat
  | _, _, pos, [] => .error (.badUleb128 start) ⟨pos, []⟩
  | i, value, pos, b :: rest =>
    let value := value + (b.toNat % 128) <<< (7 * i)
    if 10 ≤ i ∨ UInt64.size ≤ value then .error (.badUleb128 start) ⟨pos + 1, rest⟩
    else if b.toNat < 128 then .ok value ⟨pos + 1, rest⟩
    else ulebFrom start (i + 1) value (pos + 1) rest

/-- The next unsigned number. -/
def uleb : ReadM Nat := fun c => ulebFrom c.pos 0 0 c.pos c.rest

/-- The signed number whose digits, up to digit `i` in byte `b`, make `value`. -/
def signedValue (i value : Nat) (b : UInt8) : Int :=
  if b.toNat % 128 < 64 then value else value - (1 <<< (7 * (i + 1)) : Nat)

/-- Reads digit `i` and those after it of a signed number, whose lower digits make `value`. -/
def slebFrom (start : Nat) :
    (i value pos : Nat) → Bytes → EStateM.Result DecodeError Cursor Int
  | _, _, pos, [] => .error (.badSleb128 start) ⟨pos, []⟩
  | i, value, pos, b :: rest =>
    let value := value + (b.toNat % 128) <<< (7 * i)
    if 10 ≤ i then .error (.badSleb128 start) ⟨pos + 1, rest⟩
    else if b.toNat < 128 then .ok ((signedValue i value b).bmod UInt64.size) ⟨pos + 1, rest⟩
    else slebFrom start (i + 1) value (pos + 1) rest

/-- The next signed number. -/
def sleb : ReadM Int := fun c => slebFrom c.pos 0 0 c.pos c.rest

theorem ahead_ulebFrom {start i value pos : Nat} {bs : Bytes} :
    Ahead ⟨pos, bs⟩ (ulebFrom start i value pos bs) := by
  induction bs generalizing i value pos with
  | nil => exact ⟨0, Nat.le_refl _, rfl⟩
  | cons b bs ih =>
    simp only [ulebFrom]
    split
    · exact ⟨1, Nat.le_add_left _ _, rfl⟩
    · split
      · exact ⟨1, Nat.le_refl _, Nat.le_add_left _ _, rfl⟩
      · exact ih.cons

theorem ahead_slebFrom {start i value pos : Nat} {bs : Bytes} :
    Ahead ⟨pos, bs⟩ (slebFrom start i value pos bs) := by
  induction bs generalizing i value pos with
  | nil => exact ⟨0, Nat.le_refl _, rfl⟩
  | cons b bs ih =>
    simp only [slebFrom]
    split
    · exact ⟨1, Nat.le_add_left _ _, rfl⟩
    · split
      · exact ⟨1, Nat.le_refl _, Nat.le_add_left _ _, rfl⟩
      · exact ih.cons

/-- All failures name the first digit, and the same bytes fail wherever they stand. -/
theorem ulebFrom_error {start i v pos : Nat} {bytes : Bytes} {e : DecodeError} {c : Cursor}
    (h : ulebFrom start i v pos bytes = .error e c) (start' pos' : Nat) :
    ∃ c', ulebFrom start' i v pos' bytes = .error (.badUleb128 start') c' ∧
      e = .badUleb128 start := by
  fun_induction ulebFrom start i v pos bytes generalizing pos' with
  | case1 i v pos =>
    cases h
    exact ⟨_, rfl, rfl⟩
  | case2 i v pos b rest value hbound =>
    cases h
    rw [ulebFrom, if_pos hbound]
    exact ⟨_, rfl, rfl⟩
  | case3 i v pos b rest value hbound hlast => cases h
  | case4 i v pos b rest value hbound hmore ih =>
    rw [ulebFrom, if_neg hbound, if_neg hmore]
    exact ih h (pos' + 1)

theorem slebFrom_error {start i v pos : Nat} {bytes : Bytes} {e : DecodeError} {c : Cursor}
    (h : slebFrom start i v pos bytes = .error e c) (start' pos' : Nat) :
    ∃ c', slebFrom start' i v pos' bytes = .error (.badSleb128 start') c' ∧
      e = .badSleb128 start := by
  fun_induction slebFrom start i v pos bytes generalizing pos' with
  | case1 i v pos =>
    cases h
    exact ⟨_, rfl, rfl⟩
  | case2 i v pos b rest hbound =>
    cases h
    rw [slebFrom, if_pos hbound]
    exact ⟨_, rfl, rfl⟩
  | case3 i v pos b rest value hbound hlast => cases h
  | case4 i v pos b rest value hbound hmore ih =>
    rw [slebFrom, if_neg hbound, if_neg hmore]
    exact ih h (pos' + 1)

theorem advances_uleb : Advances uleb := fun _ => ahead_ulebFrom

theorem advances_sleb : Advances sleb := fun _ => ahead_slebFrom

theorem moves_uleb : Moves 1 uleb := advances_uleb.moves

theorem moves_sleb : Moves 1 sleb := advances_sleb.moves

end MachO.ReadM
