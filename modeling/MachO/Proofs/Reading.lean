import Mathlib.Data.List.Forall2
import Mathlib.Data.List.TakeWhile
import Mathlib.Tactic.Ring
import MachO.Leb128

/-!
# What readers read

* `ReadM.Reads`: a reader reads just the bytes in which its values are written, whatever follows
  them;
* `ReadM.Reads.bind`, `ReadM.Reads.times`: readers one after the other;
* `Leb128.Unsigned`, `Text.Utf8.encode`: how unsigned numbers and texts are written;
* `ReadM.reads_u8`, `ReadM.reads_terminated`, `ReadM.reads_string`, `ReadM.reads_uleb`: bytes,
  strings and numbers.
-/

namespace MachO

theorem Cursor.ext {c c' : Cursor} (hpos : c.pos = c'.pos) (hrest : c.rest = c'.rest) : c = c' := by
  cases c
  cases c'
  cases hpos
  cases hrest
  rfl

theorem Cursor.of_skip (bytes : Bytes) (pos count : Nat) :
    (Cursor.of bytes pos).skip count = Cursor.of bytes (pos + count) := by
  unfold Cursor.of Cursor.skip
  rw [List.drop_drop]

/-! ### Digits -/

namespace Leb128

/-- The number that digits stand for, the least significant one first. -/
def value : Bytes → Nat
  | [] => 0
  | b :: bs => b.toNat % 128 + 128 * value bs

/-- All digits but the last tell that another one follows. -/
def Terminated : Bytes → Prop
  | [] => False
  | b :: bs => if b.toNat < 128 then bs = [] else Terminated bs

instance decidableTerminated : (bs : Bytes) → Decidable (Terminated bs)
  | [] => inferInstanceAs (Decidable False)
  | b :: bs =>
    have := decidableTerminated bs
    inferInstanceAs (Decidable (if b.toNat < 128 then bs = [] else Terminated bs))

/-- An unsigned number is written with at most ten digits, not necessarily with as few as possible,
and is less than `2 ^ 64`. -/
structure Unsigned (n : Nat) (bs : Bytes) : Prop where
  terminated : Terminated bs
  length_le : bs.length ≤ 10
  value_eq : value bs = n
  lt : n < UInt64.size

instance (n : Nat) (bs : Bytes) : Decidable (Unsigned n bs) :=
  decidable_of_iff (Terminated bs ∧ bs.length ≤ 10 ∧ value bs = n ∧ n < UInt64.size)
    ⟨fun ⟨hterminated, hlength, hvalue, hlt⟩ => ⟨hterminated, hlength, hvalue, hlt⟩,
      fun h => ⟨h.terminated, h.length_le, h.value_eq, h.lt⟩⟩

theorem Unsigned.ne_nil {n : Nat} {bs : Bytes} (h : Unsigned n bs) : bs ≠ [] := by
  rintro rfl
  exact h.terminated

/-- Digit `i` and those after it make `n` together with the lower digits, which make `v`. -/
structure UnsignedFrom (i v n : Nat) (bs : Bytes) : Prop where
  terminated : Terminated bs
  length_le : i + bs.length ≤ 10
  value_eq : v + value bs <<< (7 * i) = n
  lt : n < UInt64.size

theorem unsignedFrom_zero_iff {n : Nat} {bs : Bytes} :
    UnsignedFrom 0 0 n bs ↔ Unsigned n bs := by
  constructor
  · rintro ⟨hterminated, hlength, hvalue, hlt⟩
    rw [Nat.zero_add, Nat.mul_zero, Nat.shiftLeft_zero] at hvalue
    rw [Nat.zero_add] at hlength
    exact ⟨hterminated, hlength, hvalue, hlt⟩
  · rintro ⟨hterminated, hlength, hvalue, hlt⟩
    refine ⟨hterminated, ?_, ?_, hlt⟩
    · rw [Nat.zero_add]
      exact hlength
    · rw [Nat.zero_add, Nat.mul_zero, Nat.shiftLeft_zero]
      exact hvalue

theorem not_unsignedFrom_nil {i v n : Nat} : ¬UnsignedFrom i v n [] := fun h => h.terminated

theorem UnsignedFrom.le {i v n : Nat} {bs : Bytes} (h : UnsignedFrom i v n bs) : v ≤ n := by
  rw [← h.value_eq]
  exact Nat.le_add_right v _

/-- A digit counts with the lower ones for the digits after it. -/
theorem add_value_cons (i v : Nat) (b : UInt8) (bs : Bytes) :
    v + value (b :: bs) <<< (7 * i) =
      v + (b.toNat % 128) <<< (7 * i) + value bs <<< (7 * (i + 1)) := by
  rw [value, Nat.shiftLeft_eq, Nat.shiftLeft_eq, Nat.shiftLeft_eq, Nat.mul_add, Nat.pow_add]
  ring

theorem unsignedFrom_cons_of_last {i v n : Nat} {b : UInt8} {bs : Bytes} (h : b.toNat < 128) :
    UnsignedFrom i v n (b :: bs) ↔
      bs = [] ∧ i < 10 ∧ v + (b.toNat % 128) <<< (7 * i) = n ∧ n < UInt64.size := by
  constructor
  · rintro ⟨hterminated, hlength, hvalue, hlt⟩
    rw [Terminated, if_pos h] at hterminated
    subst hterminated
    rw [add_value_cons, value, Nat.zero_shiftLeft, Nat.add_zero] at hvalue
    exact ⟨rfl, hlength, hvalue, hlt⟩
  · rintro ⟨rfl, hlength, hvalue, hlt⟩
    refine ⟨?_, hlength, ?_, hlt⟩
    · rw [Terminated, if_pos h]
    · rw [add_value_cons, value, Nat.zero_shiftLeft, Nat.add_zero]
      exact hvalue

theorem unsignedFrom_cons_of_more {i v n : Nat} {b : UInt8} {bs : Bytes} (h : ¬b.toNat < 128) :
    UnsignedFrom i v n (b :: bs) ↔
      UnsignedFrom (i + 1) (v + (b.toNat % 128) <<< (7 * i)) n bs := by
  have hlength : i + (b :: bs).length = i + 1 + bs.length := by
    rw [List.length_cons]
    omega
  constructor
  · rintro ⟨hterminated, hle, hvalue, hlt⟩
    rw [Terminated, if_neg h] at hterminated
    exact ⟨hterminated, hlength ▸ hle, add_value_cons i v b bs ▸ hvalue, hlt⟩
  · rintro ⟨hterminated, hle, hvalue, hlt⟩
    refine ⟨?_, hlength ▸ hle, (add_value_cons i v b bs).trans hvalue, hlt⟩
    rw [Terminated, if_neg h]
    exact hterminated

end Leb128

namespace Text.Utf8

/-- The bytes of a text. -/
def encode (s : String) : Bytes := s.toByteArray.data.toList

theorem encode_inj {s s' : String} : encode s = encode s' ↔ s = s' := by
  unfold encode
  rw [Array.toList_inj, ← String.toByteArray_inj, ByteArray.ext_iff]

theorem decode?_eq_some_iff {bytes : Bytes} {s : String} :
    decode? bytes = some s ↔ encode s = bytes := by
  unfold decode? encode String.fromUTF8?
  constructor
  · intro h
    split at h
    · cases h
      rfl
    · cases h
  · rintro rfl
    rw [dif_pos s.isValidUTF8]
    rfl

end Text.Utf8

namespace ReadM

variable {α β : Type}

theorem bind_of_ok {r : ReadM α} {f : α → ReadM β} {c c' : Cursor} {a : α} (h : r c = .ok a c') :
    (r >>= f) c = f a c' := by
  simp only [bind, EStateM.bind, h]

theorem bind_of_error {r : ReadM α} {f : α → ReadM β} {c c' : Cursor} {e : DecodeError}
    (h : r c = .error e c') : (r >>= f) c = .error e c' := by
  simp only [bind, EStateM.bind, h]

theorem require_of_pos {p : Prop} [Decidable p] (h : p) (e : DecodeError) (c : Cursor) :
    require p e c = .ok () c := by
  rw [require, if_pos h]
  rfl

theorem require_of_neg {p : Prop} [Decidable p] (h : ¬p) (e : DecodeError) (c : Cursor) :
    require p e c = .error e c := by
  rw [require, if_neg h]
  rfl

/-- A success reads the bytes in which the result is written, and all such bytes are read. -/
def Reads (r : ReadM α) (Written : α → Bytes → Prop) : Prop :=
  ∀ c a c', r c = .ok a c' ↔
    ∃ bs, Written a bs ∧ c.rest = bs ++ c'.rest ∧ c'.pos = c.pos + bs.length

/-- What is read at a position is written there, and the cursor is behind it. -/
theorem Reads.of_eq_ok_iff {r : ReadM α} {Written : α → Bytes → Prop} (hr : Reads r Written)
    {data : Bytes} {pos : Nat} {a : α} {c : Cursor} :
    r (Cursor.of data pos) = .ok a c ↔
      ∃ bs, Written a bs ∧ bs <+: data.drop pos ∧ c = Cursor.of data (pos + bs.length) := by
  rw [hr]
  refine exists_congr fun bs => and_congr_right fun _ => ?_
  show data.drop pos = bs ++ c.rest ∧ c.pos = pos + bs.length ↔ _
  constructor
  · rintro ⟨hrest, hpos⟩
    refine ⟨⟨c.rest, hrest.symm⟩, Cursor.ext hpos ?_⟩
    show c.rest = data.drop (pos + bs.length)
    rw [← List.drop_drop, hrest, List.drop_left]
  · rintro ⟨⟨rest, hrest⟩, rfl⟩
    refine ⟨?_, rfl⟩
    show data.drop pos = bs ++ data.drop (pos + bs.length)
    rw [← List.drop_drop, ← hrest, List.drop_left]

theorem reads_pure (a : α) : Reads (pure a) fun a' bs => a' = a ∧ bs = [] := by
  intro c a' c'
  constructor
  · intro h
    cases h
    exact ⟨[], ⟨rfl, rfl⟩, rfl, rfl⟩
  · rintro ⟨_, ⟨rfl, rfl⟩, hrest, hpos⟩
    rw [Cursor.ext hpos hrest.symm]
    rfl

/-- Two readers one after the other read what is written one behind the other. -/
theorem Reads.bind {r : ReadM α} {f : α → ReadM β} {Written : α → Bytes → Prop}
    {Written' : α → β → Bytes → Prop} (hr : Reads r Written)
    (hf : ∀ a, Reads (f a) (Written' a)) :
    Reads (r >>= f) fun b bs =>
      ∃ a bs₁ bs₂, Written a bs₁ ∧ Written' a b bs₂ ∧ bs = bs₁ ++ bs₂ := by
  intro c b c''
  rw [bind_eq_ok_iff]
  constructor
  · rintro ⟨a, c', h₁, h₂⟩
    obtain ⟨bs₁, hwritten₁, hrest₁, hpos₁⟩ := (hr c a c').1 h₁
    obtain ⟨bs₂, hwritten₂, hrest₂, hpos₂⟩ := (hf a c' b c'').1 h₂
    refine ⟨bs₁ ++ bs₂, ⟨a, bs₁, bs₂, hwritten₁, hwritten₂, rfl⟩, ?_, ?_⟩
    · rw [hrest₁, hrest₂, List.append_assoc]
    · rw [hpos₂, hpos₁, List.length_append, Nat.add_assoc]
  · rintro ⟨_, ⟨a, bs₁, bs₂, hwritten₁, hwritten₂, rfl⟩, hrest, hpos⟩
    rw [List.append_assoc] at hrest
    rw [List.length_append, ← Nat.add_assoc] at hpos
    exact ⟨a, ⟨c.pos + bs₁.length, bs₂ ++ c''.rest⟩, (hr _ _ _).2 ⟨bs₁, hwritten₁, hrest, rfl⟩,
      (hf _ _ _ _).2 ⟨bs₂, hwritten₂, rfl, hpos⟩⟩

theorem Reads.congr {r : ReadM α} {Written Written' : α → Bytes → Prop} (hr : Reads r Written)
    (h : ∀ a bs, Written a bs ↔ Written' a bs) : Reads r Written' := by
  intro c a c'
  rw [hr c a c']
  exact exists_congr fun bs => and_congr_left fun _ => h a bs

/-- Only errors tell where a reader started. -/
theorem Reads.of_position {f : Nat → ReadM α} {Written : α → Bytes → Prop}
    (h : ∀ start, Reads (f start) Written) : Reads (position >>= f) Written :=
  fun c => h c.pos c

/-- A choice between two readers comes before what follows either of them. -/
theorem ite_bind {p : Prop} [Decidable p] (r r' : ReadM α) (f : α → ReadM β) :
    (if p then r >>= f else r' >>= f) = (if p then r else r') >>= f := by
  split <;> rfl

/-- A reader that only changes the value reads the same bytes. -/
theorem Reads.map {r : ReadM α} {Written : α → Bytes → Prop} (hr : Reads r Written) (f : α → β) :
    Reads (do return f (← r)) fun b bs => ∃ a, Written a bs ∧ b = f a := by
  intro c b c'
  rw [hr.bind (fun a => reads_pure (f a)) c b c']
  constructor
  · rintro ⟨_, ⟨a, bs, _, hwritten, ⟨rfl, rfl⟩, rfl⟩, hrest, hpos⟩
    rw [List.append_nil] at hrest hpos
    exact ⟨bs, ⟨a, hwritten, rfl⟩, hrest, hpos⟩
  · rintro ⟨bs, ⟨a, hwritten, rfl⟩, hrest, hpos⟩
    exact ⟨bs, ⟨a, bs, [], hwritten, ⟨rfl, rfl⟩, (List.append_nil _).symm⟩, hrest, hpos⟩

/-- A row of values is written as the values one behind the other. -/
def Row (Written : α → Bytes → Prop) (as : List α) (bs : Bytes) : Prop :=
  ∃ chunks, List.Forall₂ Written as chunks ∧ bs = chunks.flatten

/-- A row of a fixed number of values is read value by value. -/
theorem Reads.times {r : ReadM α} {Written : α → Bytes → Prop} (hr : Reads r Written)
    (count : Nat) : Reads (times r count) fun as bs => as.length = count ∧ Row Written as bs := by
  induction count with
  | zero =>
    intro c as c'
    rw [show ReadM.times r 0 = pure [] from rfl, reads_pure [] c as c']
    constructor
    · rintro ⟨bs, ⟨rfl, rfl⟩, hrest, hpos⟩
      exact ⟨[], ⟨rfl, [], .nil, rfl⟩, hrest, hpos⟩
    · rintro ⟨bs, ⟨hlength, chunks, hrow, rfl⟩, hrest, hpos⟩
      rw [List.length_eq_zero_iff] at hlength
      subst hlength
      rw [List.forall₂_nil_left_iff] at hrow
      subst hrow
      exact ⟨[], ⟨rfl, rfl⟩, hrest, hpos⟩
  | succ count ih =>
    intro c as c'
    have step := hr.bind fun a => ih.map (a :: ·)
    rw [show ReadM.times r (count + 1) = (do
      let a ← r
      return a :: (← ReadM.times r count)) from rfl, step c as c']
    constructor
    · rintro ⟨_, ⟨a, bs, _, ha, ⟨as, ⟨hlength, chunks, hrow, rfl⟩, rfl⟩, rfl⟩, hrest, hpos⟩
      exact ⟨_, ⟨congrArg Nat.succ hlength, bs :: chunks, .cons ha hrow, rfl⟩, hrest, hpos⟩
    · rintro ⟨_, ⟨hlength, chunks, hrow, rfl⟩, hrest, hpos⟩
      cases hrow with
      | nil => cases hlength
      | @cons a bs as chunks ha hrow =>
        rw [List.length_cons, Nat.add_right_cancel_iff] at hlength
        exact ⟨_, ⟨a, bs, _, ha, ⟨as, ⟨hlength, chunks, hrow, rfl⟩, rfl⟩, rfl⟩, hrest, hpos⟩

/-- A reader in a window reads the next `size` bytes. -/
theorem window_eq_ok_iff {r : ReadM α} {size : Nat} {a : α} {c c' : Cursor}
    (hsize : size ≤ c.rest.length) :
    window size r c = .ok a c' ↔
      ∃ bs, bs.length = size ∧ (∃ c₁, r ⟨c.pos, bs⟩ = .ok a c₁) ∧ c.rest = bs ++ c'.rest ∧
        c'.pos = c.pos + bs.length := by
  unfold window
  constructor
  · intro h
    split at h
    · rename_i c₁ hread
      cases h
      have hlength : (c.rest.take size).length = size := by
        rw [List.length_take]
        exact Nat.min_eq_left hsize
      refine ⟨c.rest.take size, hlength, ⟨c₁, hread⟩, (List.take_append_drop size c.rest).symm, ?_⟩
      rw [hlength]
      rfl
    · cases h
  · rintro ⟨bs, rfl, ⟨c₁, hread⟩, hrest, hpos⟩
    have htake : c.rest.take bs.length = bs := by rw [hrest, List.take_left]
    have hskip : c.skip bs.length = c' := by
      refine Cursor.ext hpos.symm ?_
      show c.rest.drop bs.length = _
      rw [hrest, List.drop_left]
    rw [htake, hread, hskip]

theorem reads_u8 : Reads u8 fun b bs => bs = [b] := by
  rintro ⟨pos, rest⟩ b ⟨pos', rest'⟩
  unfold u8
  cases rest with
  | nil => simp
  | cons x rest =>
    simp only [EStateM.Result.ok.injEq, Cursor.mk.injEq, exists_eq_left, List.singleton_append,
      List.cons.injEq, List.length_singleton]
    constructor
    · rintro ⟨rfl, rfl, rfl⟩
      exact ⟨⟨rfl, rfl⟩, rfl⟩
    · rintro ⟨⟨rfl, rfl⟩, rfl⟩
      exact ⟨rfl, rfl, rfl⟩

/-- A string is read up to the first zero byte, and that byte with it. -/
theorem reads_terminated : Reads terminated fun s bs => 0 ∉ s ∧ bs = s ++ [0] := by
  rintro ⟨pos, rest⟩ s ⟨pos', rest'⟩
  unfold terminated
  constructor
  · intro h
    have hsplit := List.takeWhile_append_dropWhile (p := (· != 0)) (l := rest)
    split at h
    · cases h
    · rename_i x tail hdrop
      have hx : x = 0 := by
        have hhead := List.head?_dropWhile_not (· != 0) rest
        rw [show rest.dropWhile (· != 0) = x :: tail from hdrop] at hhead
        simpa using hhead
      subst hx
      cases h
      refine ⟨_, ⟨fun hmem => ?_, rfl⟩, ?_, ?_⟩
      · simpa using List.mem_takeWhile_imp hmem
      · rw [List.append_assoc, List.singleton_append, ← hdrop]
        exact hsplit.symm
      · rw [List.length_append]
        rfl
  · rintro ⟨_, ⟨hs, rfl⟩, hrest, hpos⟩
    have hbefore : ∀ x ∈ s, (x != 0) = true := by
      intro x hx
      rw [bne_iff_ne]
      rintro rfl
      exact hs hx
    dsimp only at hrest hpos ⊢
    rw [hrest, List.append_assoc, List.dropWhile_append_of_pos hbefore,
      List.takeWhile_append_of_pos hbefore, hpos]
    simp [Nat.add_assoc]

/-- A text is read if the bytes up to the first zero byte are one. -/
theorem reads_string :
    Reads string fun s bs => 0 ∉ Text.Utf8.encode s ∧ bs = Text.Utf8.encode s ++ [0] := by
  intro c s c'
  have hstring : string c = .ok s c' ↔ terminated c = .ok (Text.Utf8.encode s) c' := by
    rw [string_eq]
    cases terminated c with
    | error e c₁ => simp
    | ok bytes c₁ =>
      dsimp only
      cases hdecode : Text.Utf8.decode? bytes with
      | none =>
        have hne : bytes ≠ Text.Utf8.encode s := by
          rintro rfl
          rw [Text.Utf8.decode?_eq_some_iff.2 rfl] at hdecode
          cases hdecode
        simp [hne]
      | some s' =>
        rw [Text.Utf8.decode?_eq_some_iff] at hdecode
        subst hdecode
        simp [Text.Utf8.encode_inj]
  rw [hstring, reads_terminated]

/-- Written bytes that are not empty begin with the next byte. -/
theorem exists_written_cons {Written : Bytes → Prop} (hnil : ¬Written []) {pos : Nat} {b : UInt8}
    {bytes : Bytes} {c : Cursor} :
    (∃ bs, Written bs ∧ b :: bytes = bs ++ c.rest ∧ c.pos = pos + bs.length) ↔
      ∃ bs, Written (b :: bs) ∧ bytes = bs ++ c.rest ∧ c.pos = pos + 1 + bs.length := by
  constructor
  · rintro ⟨bs, hbs, hbytes, hpos⟩
    cases bs with
    | nil => exact (hnil hbs).elim
    | cons b' bs =>
      rw [List.cons_append, List.cons.injEq] at hbytes
      obtain ⟨rfl, hbytes⟩ := hbytes
      rw [List.length_cons] at hpos
      exact ⟨bs, hbs, hbytes, by omega⟩
  · rintro ⟨bs, hbs, rfl, hpos⟩
    refine ⟨b :: bs, hbs, rfl, ?_⟩
    rw [List.length_cons]
    omega

/-- What is read as digit `i` and those after it, behind digits that make `v`. -/
theorem ulebFrom_eq_ok_iff {start i v pos n : Nat} {bytes : Bytes} {c : Cursor} :
    ulebFrom start i v pos bytes = .ok n c ↔
      ∃ bs, Leb128.UnsignedFrom i v n bs ∧ bytes = bs ++ c.rest ∧ c.pos = pos + bs.length := by
  induction bytes generalizing i v pos with
  | nil =>
    constructor
    · rintro ⟨⟩
    · rintro ⟨bs, hbs, hbytes, -⟩
      rw [eq_comm, List.append_eq_nil_iff] at hbytes
      rw [hbytes.1] at hbs
      exact (Leb128.not_unsignedFrom_nil hbs).elim
  | cons b bytes ih =>
    rw [exists_written_cons Leb128.not_unsignedFrom_nil, ulebFrom]
    by_cases hlast : b.toNat < 128
    · simp only [Leb128.unsignedFrom_cons_of_last hlast, if_pos hlast]
      constructor
      · intro h
        split at h
        · cases h
        · rename_i hbound
          cases h
          exact ⟨[], ⟨rfl, by omega, rfl, by omega⟩, rfl, rfl⟩
      · rintro ⟨_, ⟨rfl, hi, rfl, hlt⟩, rfl, hpos⟩
        rw [if_neg (by omega)]
        exact congrArg _ (Cursor.ext hpos.symm rfl)
    · simp only [Leb128.unsignedFrom_cons_of_more hlast, if_neg hlast]
      rw [← ih]
      constructor
      · intro h
        split at h
        · cases h
        · exact h
      · -- Later digits only add to the number, so it is as small now as it is in the end.
        intro h
        obtain ⟨bs, hbs, -, -⟩ := ih.1 h
        have hle := hbs.le
        have hlt := hbs.lt
        have hlength := hbs.length_le
        rw [if_neg (by omega)]
        exact h

/-- What is read as an unsigned number is how unsigned numbers are written. -/
theorem reads_uleb : Reads uleb Leb128.Unsigned := by
  intro c n c'
  rw [uleb, ulebFrom_eq_ok_iff]
  exact exists_congr fun bs => and_congr_left fun _ => Leb128.unsignedFrom_zero_iff

end ReadM

end MachO
