import MachO.Bytes
import MachO.Error
import MachO.Text.Utf8

/-!
# Reading a byte string forward

* `Cursor`: a position in a byte string, with the bytes that follow it;
* `ReadM`: readers, which move a cursor and may fail.  A failed read leaves the cursor where the
  reader stopped;
* words (`ReadM.u8`, `ReadM.u16`, `ReadM.u32`, `ReadM.u64`, `ReadM.address`), strings
  (`ReadM.fixedName`, `ReadM.terminated`, `ReadM.string`), and `ReadM.runAt`, which reads at a
  given position;
* `ReadM.Moves`: a success moves the cursor forward, by at least a given number of bytes and not
  beyond the end;
* `ReadM.Advances`: a success moves it forward, and a failure does not move it back.

Offsets in errors are positions of the cursor.
-/

namespace MachO

/-- A position in a byte string, and the bytes from there on. -/
structure Cursor where
  pos : Nat
  rest : Bytes
  deriving DecidableEq, Repr

/-- The cursor at a position of a byte string. -/
def Cursor.of (data : Bytes) (pos : Nat) : Cursor := ⟨pos, data.drop pos⟩

/-- The cursor `count` bytes further on. -/
def Cursor.skip (c : Cursor) (count : Nat) : Cursor := ⟨c.pos + count, c.rest.drop count⟩

/-- Whether no byte is left. -/
def Cursor.atEnd (c : Cursor) : Bool := c.rest.isEmpty

/-- Readers: a success or a failure, and the cursor after it. -/
abbrev ReadM := EStateM DecodeError Cursor

namespace ReadM

/-- What a reader makes of the bytes at a position. -/
def runAt {α : Type} (r : ReadM α) (data : Bytes) (pos : Nat) : Except DecodeError α :=
  match r (Cursor.of data pos) with
  | .ok a _ => .ok a
  | .error e _ => .error e

/-- The position of the cursor. -/
def position : ReadM Nat := do return (← get).pos

/-- Whether no byte is left. -/
def atEnd : ReadM Bool := do return (← get).atEnd

/-- The number of bytes that are left. -/
def remaining : ReadM Nat := do return (← get).rest.length

/-- Fails unless a condition holds. -/
def require (p : Prop) [Decidable p] (e : DecodeError) : ReadM Unit :=
  if p then pure () else throw e

/-- The next byte. -/
def u8 : ReadM UInt8 := fun c =>
  match c.rest with
  | [] => .error (.truncated c.pos 1) c
  | b :: rest => .ok b ⟨c.pos + 1, rest⟩

/-- The next `count` bytes. -/
def take (count : Nat) : ReadM Bytes := fun c =>
  let bytes := c.rest.take count
  if bytes.length = count then .ok bytes (c.skip count)
  else .error (.truncated c.pos count) c

/-- The next word of two bytes. -/
def u16 (e : Endian) : ReadM UInt16 := do return UInt16.ofNat (e.toNat (← take 2))

/-- The next word of four bytes. -/
def u32 (e : Endian) : ReadM UInt32 := do return UInt32.ofNat (e.toNat (← take 4))

/-- The next word of eight bytes. -/
def u64 (e : Endian) : ReadM UInt64 := do return UInt64.ofNat (e.toNat (← take 8))

/-- The next address, a word of the image's pointer size. -/
def address (w : Width) (e : Endian) : ReadM UInt64 :=
  match w with
  | .bits32 => do return (← u32 e).toUInt64
  | .bits64 => u64 e

/-- The bytes before the next zero byte, which is read too. -/
def terminated : ReadM Bytes := fun c =>
  match c.rest.dropWhile (· != 0) with
  | [] => .error (.unterminated c.pos) c
  | _ :: rest =>
    let bytes := c.rest.takeWhile (· != 0)
    .ok bytes ⟨c.pos + bytes.length + 1, rest⟩

/-- The text before the first zero byte of the bytes from `start` on. -/
def textFrom (start : Nat) (bytes : Bytes) : Except DecodeError String :=
  match bytes.findIdx? (· == 0) with
  | none => .error (.unterminated start)
  | some count =>
    match Text.Utf8.decode? (bytes.take count) with
    | some s => .ok s
    | none => .error (.notUtf8 start)

/-- The text before the next zero byte, which is read too.  A failure reads nothing. -/
def string : ReadM String := fun c =>
  match textFrom c.pos c.rest with
  | .ok s => .ok s (c.skip (s.utf8ByteSize + 1))
  | .error e => .error e c

/-- A name of at most sixteen bytes in a field of sixteen, which zero bytes fill up. -/
def fixedName : ReadM String := do
  let start ← position
  let field ← take 16
  match Text.Utf8.decode? (field.takeWhile (· != 0)) with
  | some name => return name
  | none => throw (.notUtf8 start)

/-- Reads without moving the cursor. -/
def peek {α : Type} (r : ReadM α) : ReadM α := fun c =>
  match r c with
  | .ok a _ => .ok a c
  | .error e _ => .error e c

/-- Reads `count` times in a row. -/
def times {α : Type} (r : ReadM α) : Nat → ReadM (List α)
  | 0 => return []
  | count + 1 => do
    let a ← r
    return a :: (← times r count)

/-- Reads the next `size` bytes with a reader that sees no others, and moves past them. -/
def window {α : Type} (size : Nat) (r : ReadM α) : ReadM α := fun c =>
  match r ⟨c.pos, c.rest.take size⟩ with
  | .ok a _ => .ok a (c.skip size)
  | .error e c' => .error e c'

/-- A success moves the cursor forward by at least `least` bytes, and not beyond the end. -/
def Moves {α : Type} (least : Nat) (r : ReadM α) : Prop :=
  ∀ ⦃c a c'⦄, r c = .ok a c' → ∃ n, least ≤ n ∧ n ≤ c.rest.length ∧ c' = c.skip n

theorem Moves.mono {α : Type} {r : ReadM α} {m n : Nat} (h : Moves n r) (hmn : m ≤ n) :
    Moves m r := fun _ _ _ hr =>
  let ⟨k, hk, hle, heq⟩ := h hr
  ⟨k, Nat.le_trans hmn hk, hle, heq⟩

theorem Moves.length_lt {α : Type} {r : ReadM α} {n : Nat} (h : Moves (n + 1) r) {c c' : Cursor}
    {a : α} (hr : r c = .ok a c') : c'.rest.length < c.rest.length := by
  obtain ⟨k, hk, hle, rfl⟩ := h hr
  simp only [Cursor.skip, List.length_drop]
  omega

/-- A result of a reader that started at a cursor: a success is at least one byte further on, a
failure may be anywhere from there on, and neither is beyond the end. -/
def Ahead {α : Type} (c : Cursor) : EStateM.Result DecodeError Cursor α → Prop
  | .ok _ c' => ∃ n, 1 ≤ n ∧ n ≤ c.rest.length ∧ c' = c.skip n
  | .error _ c' => ∃ n, n ≤ c.rest.length ∧ c' = c.skip n

/-- A success moves the cursor forward, a failure does not move it back, and neither moves it beyond
the end. -/
def Advances {α : Type} (r : ReadM α) : Prop := ∀ c, Ahead c (r c)

theorem Advances.moves {α : Type} {r : ReadM α} (h : Advances r) : Moves 1 r := by
  intro c a c' hr
  have hahead := h c
  rw [hr] at hahead
  exact hahead

/-- What is ahead of the next byte is ahead of this one. -/
theorem Ahead.cons {α : Type} {pos : Nat} {b : UInt8} {bytes : Bytes}
    {result : EStateM.Result DecodeError Cursor α} (h : Ahead ⟨pos + 1, bytes⟩ result) :
    Ahead ⟨pos, b :: bytes⟩ result := by
  have hskip (n : Nat) : Cursor.skip ⟨pos + 1, bytes⟩ n = Cursor.skip ⟨pos, b :: bytes⟩ (n + 1) := by
    simp only [Cursor.skip, List.drop_succ_cons, Nat.add_assoc, Nat.add_comm 1]
  cases result with
  | ok a c =>
    obtain ⟨n, -, hle, rfl⟩ := h
    exact ⟨n + 1, Nat.le_add_left _ _, Nat.succ_le_succ hle, hskip n⟩
  | error e c =>
    obtain ⟨n, hle, rfl⟩ := h
    exact ⟨n + 1, Nat.succ_le_succ hle, hskip n⟩

theorem Moves.pure {α : Type} (a : α) : Moves 0 (pure a : ReadM α) := by
  intro c b c' h
  cases h
  exact ⟨0, Nat.le_refl _, Nat.zero_le _, rfl⟩

theorem Moves.throw {α : Type} (n : Nat) (e : DecodeError) : Moves n (throw e : ReadM α) := by
  intro c b c' h
  cases h

/-- What a sequence of two readers does when it succeeds. -/
theorem bind_eq_ok_iff {α β : Type} {r : ReadM α} {f : α → ReadM β} {c c'' : Cursor} {b : β} :
    (r >>= f) c = .ok b c'' ↔ ∃ a c', r c = .ok a c' ∧ f a c' = .ok b c'' := by
  simp only [bind, EStateM.bind]
  cases r c <;> simp [and_assoc]

theorem Moves.bind {α β : Type} {r : ReadM α} {f : α → ReadM β} {m n : Nat} (hr : Moves m r)
    (hf : ∀ a, Moves n (f a)) : Moves (m + n) (r >>= f) := by
  intro c b c'' h
  obtain ⟨a, c', h₁, h₂⟩ := bind_eq_ok_iff.1 h
  obtain ⟨k, hk, hkle, rfl⟩ := hr h₁
  obtain ⟨l, hl, hlle, rfl⟩ := hf a h₂
  simp only [Cursor.skip, List.length_drop] at hlle
  refine ⟨k + l, Nat.add_le_add hk hl, by omega, ?_⟩
  simp [Cursor.skip, Nat.add_assoc]

/-- A reader that moves after any other one moves. -/
theorem Moves.bind_of_right {α β : Type} {r : ReadM α} {f : α → ReadM β} {n : Nat}
    (hr : Moves 0 r) (hf : ∀ a, Moves n (f a)) : Moves n (r >>= f) :=
  (hr.bind hf).mono (by omega)

theorem Moves.times {α : Type} {r : ReadM α} (hr : Moves 0 r) : ∀ count, Moves 0 (times r count)
  | 0 => Moves.pure []
  | count + 1 => hr.bind fun _ => (Moves.times hr count).bind fun _ => Moves.pure _

theorem Moves.window {α : Type} {size : Nat} {r : ReadM α} {c c' : Cursor} {a : α}
    (hsize : size ≤ c.rest.length) (h : window size r c = .ok a c') :
    ∃ n, size ≤ n ∧ n ≤ c.rest.length ∧ c' = c.skip n := by
  unfold ReadM.window at h
  split at h
  · cases h
    exact ⟨size, Nat.le_refl _, hsize, rfl⟩
  · cases h

theorem moves_position : Moves 0 position := by
  intro c a c' h
  cases h
  exact ⟨0, Nat.le_refl _, Nat.zero_le _, rfl⟩

theorem require_eq_ok_iff {p : Prop} [Decidable p] {e : DecodeError} {c c' : Cursor} {u : Unit} :
    require p e c = .ok u c' ↔ p ∧ c = c' := by
  unfold require
  split
  · rename_i h
    exact ⟨fun h' => by cases h'; exact ⟨h, rfl⟩, fun ⟨_, h'⟩ => by subst h'; rfl⟩
  · rename_i h
    exact ⟨fun h' => (by cases h'), fun h' => (h h'.1).elim⟩

theorem moves_u8 : Moves 1 u8 := by
  intro c a c' h
  unfold u8 at h
  split at h
  · cases h
  · rename_i b rest hr
    cases h
    exact ⟨1, Nat.le_refl _, by simp [hr], by simp [Cursor.skip, hr]⟩

/-- A string of bytes is read where a zero byte is left. -/
theorem terminated_eq (c : Cursor) :
    terminated c =
      match c.rest.findIdx? (· == 0) with
      | none => .error (.unterminated c.pos) c
      | some count => .ok (c.rest.take count) (c.skip (count + 1)) := by
  have htake : c.rest.takeWhile (· != 0) = c.rest.take (c.rest.findIdx (· == 0)) := by
    simp only [List.takeWhile_eq_take_findIdx_not, bne, Bool.not_not]
  have hdrop : c.rest.dropWhile (· != 0) = c.rest.drop (c.rest.findIdx (· == 0)) := by
    simp only [List.dropWhile_eq_drop_findIdx_not, bne, Bool.not_not]
  unfold terminated
  rw [htake, hdrop]
  cases h : c.rest.findIdx? (· == 0) with
  | none =>
    rw [List.findIdx?_eq_none_iff_findIdx_eq] at h
    rw [h, List.drop_length]
  | some count =>
    rw [List.findIdx?_eq_some_iff_findIdx_eq] at h
    obtain ⟨hlt, rfl⟩ := h
    rw [List.drop_eq_getElem_cons hlt]
    simp only [List.length_take, Nat.min_eq_left (Nat.le_of_lt hlt)]
    rfl

/-- A text is read where a string of bytes is, if these are UTF-8. -/
theorem string_eq (c : Cursor) :
    string c =
      match terminated c with
      | .error e c' => .error e c'
      | .ok bytes c' =>
        match Text.Utf8.decode? bytes with
        | some s => .ok s c'
        | none => .error (.notUtf8 c.pos) c := by
  rw [terminated_eq]
  unfold string textFrom
  cases h : c.rest.findIdx? (· == 0) with
  | none => rfl
  | some count =>
    dsimp only
    cases hdecode : Text.Utf8.decode? (c.rest.take count) with
    | none => rfl
    | some s =>
      -- The text is as long as its bytes, so both readers move as far.
      have hlt := (List.findIdx?_eq_some_iff_findIdx_eq.1 h).1
      have hsize := Text.Utf8.utf8ByteSize_of_decode? hdecode
      rw [List.length_take, Nat.min_eq_left (Nat.le_of_lt hlt)] at hsize
      simp only [hsize]

theorem moves_terminated : Moves 1 terminated := by
  intro c a c' h
  rw [terminated_eq] at h
  split at h
  · cases h
  · rename_i count hcount
    cases h
    have hlt := (List.findIdx?_eq_some_iff_findIdx_eq.1 hcount).1
    exact ⟨count + 1, Nat.le_add_left _ _, hlt, rfl⟩

theorem moves_string : Moves 1 string := by
  intro c a c' h
  rw [string_eq] at h
  split at h
  · cases h
  · rename_i bytes c₁ h₁
    split at h
    · cases h
      exact moves_terminated h₁
    · cases h

end ReadM

end MachO
