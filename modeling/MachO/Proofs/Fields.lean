import MachO.Cursor
import MachO.Proofs.Reading

/-!
# Fields at fixed positions

A record of fields of fixed sizes is read from any place at which there are enough bytes, and each
field is what stands at its own position.

* `Endian.wordAt`, `Endian.longAt`, `Endian.addressAt`: the words at a position of a byte string;
* `ReadM.ReadsField`: a reader reads what stands in a field;
* `ReadM.ReadsField.bind`, `ReadM.ReadsField.times`: fields one behind the other.
-/

namespace MachO

/-! ### Words -/

namespace Endian

variable (e : Endian) (data : Bytes) (pos : Nat)

/-- The number that the `size` bytes from a position on stand for. -/
def numberAt (size : Nat) : Nat := e.toNat ((data.drop pos).take size)

/-- The word of four bytes at a position. -/
def wordAt : UInt32 := UInt32.ofNat (e.numberAt data pos 4)

/-- The word of eight bytes at a position. -/
def longAt : UInt64 := UInt64.ofNat (e.numberAt data pos 8)

/-- The word at a position that has the pointer size. -/
def addressAt (w : Width) : UInt64 :=
  match w with
  | .bits32 => (e.wordAt data pos).toUInt64
  | .bits64 => e.longAt data pos

end Endian

/-! ### Readers -/

namespace ReadM

variable {α β : Type} {m n : Nat} {r : ReadM α} {f : Bytes → Nat → α}

/-- The reader succeeds where there are `size` bytes.  It moves behind them, and returns what `field`
finds at their position. -/
def ReadsField (r : ReadM α) (size : Nat) (field : Bytes → Nat → α) : Prop :=
  ∀ ⦃data : Bytes⦄ ⦃pos : Nat⦄, pos ≤ data.length → ∀ {a c},
    r (Cursor.of data pos) = .ok a c ↔
      pos + size ≤ data.length ∧ a = field data pos ∧ c = Cursor.of data (pos + size)

/-- A reader that reads a field where there are enough bytes. -/
theorem ReadsField.eq_ok (hr : ReadsField r n f) {data : Bytes} {pos : Nat}
    (h : pos + n ≤ data.length) :
    r (Cursor.of data pos) = .ok (f data pos) (Cursor.of data (pos + n)) :=
  (hr (Nat.le_trans (Nat.le_add_right pos n) h)).2 ⟨h, rfl, rfl⟩

theorem runAt_eq_ok_iff {data : Bytes} {pos : Nat} {a : α} :
    r.runAt data pos = .ok a ↔ ∃ c, r (Cursor.of data pos) = .ok a c := by
  unfold runAt
  cases r (Cursor.of data pos) <;> simp

theorem ReadsField.congr {f' : Bytes → Nat → α} (hr : ReadsField r m f') (hsize : m = n)
    (hfield : ∀ data pos, f' data pos = f data pos) : ReadsField r n f := by
  subst hsize
  rw [← funext fun data => funext (hfield data)]
  exact hr

theorem readsField_pure (a : α) : ReadsField (pure a) 0 fun _ _ => a := by
  intro data pos hpos b c
  constructor
  · intro h
    cases h
    exact ⟨hpos, rfl, rfl⟩
  · rintro ⟨-, rfl, rfl⟩
    rfl

/-- Fields one behind the other make one field. -/
theorem ReadsField.bind {g : α → ReadM β} {f' : α → Bytes → Nat → β} (hr : ReadsField r n f)
    (hg : ∀ a, ReadsField (g a) m (f' a)) :
    ReadsField (r >>= g) (n + m) fun data pos => f' (f data pos) data (pos + n) := by
  intro data pos hpos b c
  rw [bind_eq_ok_iff, ← Nat.add_assoc]
  constructor
  · rintro ⟨a, c', h₁, h₂⟩
    obtain ⟨hle, rfl, rfl⟩ := (hr hpos).1 h₁
    exact (hg _ hle).1 h₂
  · rintro ⟨hle, rfl, rfl⟩
    have hle' : pos + n ≤ data.length := Nat.le_trans (Nat.le_add_right _ m) hle
    exact ⟨_, _, hr.eq_ok hle', (hg _).eq_ok hle⟩

theorem ReadsField.map (hr : ReadsField r n f) (g : α → β) :
    ReadsField (do return g (← r)) n fun data pos => g (f data pos) :=
  hr.bind fun a => readsField_pure (g a)

/-- Fields of the same size stand at equal distances. -/
theorem ReadsField.times (hr : ReadsField r n f) (count : Nat) :
    ReadsField (times r count) (count * n) fun data pos =>
      (List.range count).map fun i => f data (pos + i * n) := by
  induction count with
  | zero =>
    rw [Nat.zero_mul]
    exact readsField_pure []
  | succ count ih =>
    refine (hr.bind fun a => ih.map (a :: ·)).congr ?_ fun data pos => ?_
    · rw [Nat.succ_mul, Nat.add_comm]
    · rw [List.range_succ_eq_map, List.map_cons, List.map_map, Nat.zero_mul, Nat.add_zero]
      refine congrArg _ (List.map_congr_left fun i _ => congrArg (f data) ?_)
      show pos + n + i * n = pos + (i + 1) * n
      rw [Nat.succ_mul, Nat.add_comm (i * n) n, Nat.add_assoc]

theorem readsField_take (size : Nat) :
    ReadsField (take size) size fun data pos => (data.drop pos).take size := by
  intro data pos hpos bytes c
  have hlength : ((data.drop pos).take size).length = size ↔ pos + size ≤ data.length := by
    rw [List.length_take, List.length_drop]
    omega
  show (if ((data.drop pos).take size).length = size then EStateM.Result.ok _ _ else _) = _ ↔ _
  by_cases hsize : ((data.drop pos).take size).length = size
  · rw [if_pos hsize, Cursor.of_skip]
    constructor
    · intro h
      cases h
      exact ⟨hlength.1 hsize, rfl, rfl⟩
    · rintro ⟨-, rfl, rfl⟩
      rfl
  · rw [if_neg hsize]
    constructor
    · intro h
      cases h
    · rintro ⟨hle, -, -⟩
      exact absurd (hlength.2 hle) hsize

theorem readsField_u32 (e : Endian) : ReadsField (u32 e) 4 e.wordAt :=
  (readsField_take 4).map fun bs => UInt32.ofNat (e.toNat bs)

theorem readsField_u64 (e : Endian) : ReadsField (u64 e) 8 e.longAt :=
  (readsField_take 8).map fun bs => UInt64.ofNat (e.toNat bs)

theorem runAt_u64 (e : Endian) (data : Bytes) (pos : Nat) :
    (u64 e).runAt data pos =
      if ((data.drop pos).take 8).length = 8 then .ok (e.longAt data pos)
      else .error (.truncated pos 8) := by
  unfold runAt u64
  by_cases hlength : ((data.drop pos).take 8).length = 8
  · have htake : take 8 (Cursor.of data pos) = .ok ((data.drop pos).take 8) _ := if_pos hlength
    rw [if_pos hlength, bind_of_ok htake]
    rfl
  · have htake : take 8 (Cursor.of data pos) = .error (.truncated pos 8) _ := if_neg hlength
    rw [if_neg hlength, bind_of_error htake]

theorem readsField_address (w : Width) (e : Endian) :
    ReadsField (address w e) w.pointerSize fun data pos => e.addressAt data pos w := by
  cases w with
  | bits32 => exact (readsField_u32 e).map UInt32.toUInt64
  | bits64 => exact readsField_u64 e

end ReadM

end MachO
