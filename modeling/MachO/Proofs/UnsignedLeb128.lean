import Mathlib.Algebra.BigOperators.Ring.Finset
import Mathlib.Data.Nat.Bitwise
import MachO.Proofs.SignedLeb128

/-!
# What unsigned LEB128 numbers are read as

* `ReadM.ulebRegister`: reading with a register of 64 bits, into which digits are shifted, and
  `ReadM.uleb_eq_register`: what is read is the same;
* `Leb128.LastDigitAt`, `Leb128.numberUpTo`: the last digit of the number at a position, and the number
  up to there as a sum;
* `Leb128.padded`: the digits of a number with zeros behind them, and `Leb128.length_ofNat_le_length`:
  no digits of a number are fewer than `Leb128.ofNat`;
* `Leb128.uleb_exact`: which numbers are read.
-/

namespace MachO

/-! ### A register of 64 bits -/

namespace ReadM

/-- Reads the digit that is shifted by `shift` bits into a register, and those after it.  Of the tenth
digit there is room for one bit only, and for no digit behind it. -/
def ulebRegister (start : Nat) :
    (shift : Nat) → (register : UInt64) → (pos : Nat) → Bytes → EStateM.Result DecodeError Cursor Nat
  | _, _, pos, [] => .error (.badUleb128 start) ⟨pos, []⟩
  | shift, register, pos, b :: rest =>
    let payload := (b &&& 0x7f).toUInt64
    if 64 ≤ shift ∨ (shift = 63 ∧ 1 < payload) then .error (.badUleb128 start) ⟨pos + 1, rest⟩
    else
      let register := register ||| payload <<< UInt64.ofNat shift
      if b &&& 0x80 = 0 then .ok register.toNat ⟨pos + 1, rest⟩
      else ulebRegister start (shift + 7) register (pos + 1) rest

theorem toNat_payload (b : UInt8) : (b &&& 0x7f).toUInt64.toNat = b.toNat % 128 := by
  rw [UInt8.toNat_toUInt64, UInt8.toNat_and]
  exact Nat.and_two_pow_sub_one_eq_mod b.toNat 7

/-- The high bit of the last digit is not set. -/
theorem and_high_eq_zero_iff (b : UInt8) : b &&& 0x80 = 0 ↔ b.toNat < 128 := by
  have hb := b.toNat_lt
  have hand : (b &&& 0x80).toNat = (b.toNat.testBit 7).toNat * 2 ^ 7 :=
    (UInt8.toNat_and b 0x80).trans (Nat.and_two_pow b.toNat 7)
  rw [← UInt8.toNat_inj, hand, Nat.testBit_eq_decide_div_mod_eq]
  by_cases hlast : b.toNat < 128
  · have hbit : b.toNat / 2 ^ 7 % 2 ≠ 1 := by omega
    rw [decide_eq_false hbit]
    exact iff_of_true rfl hlast
  · have hbit : b.toNat / 2 ^ 7 % 2 = 1 := by omega
    rw [decide_eq_true hbit]
    exact iff_of_false (by decide) hlast

/-- The bits of a digit are put in front of the lower ones. -/
theorem toNat_register {i : Nat} {register : UInt64} {b : UInt8} (hi : i < 10)
    (hregister : register.toNat < 2 ^ (7 * i))
    (hfits : register.toNat + (b.toNat % 128) <<< (7 * i) < UInt64.size) :
    (register ||| (b &&& 0x7f).toUInt64 <<< UInt64.ofNat (7 * i)).toNat =
      register.toNat + (b.toNat % 128) <<< (7 * i) := by
  have hshift : (UInt64.ofNat (7 * i)).toNat % 64 = 7 * i := by
    rw [UInt64.toNat_ofNat_of_lt' (by show 7 * i < 2 ^ 64; omega), Nat.mod_eq_of_lt (by omega)]
  have hdigit : (b.toNat % 128) <<< (7 * i) < 2 ^ 64 :=
    Nat.lt_of_le_of_lt (Nat.le_add_left _ _) hfits
  rw [UInt64.toNat_or, UInt64.toNat_shiftLeft, toNat_payload, hshift, Nat.mod_eq_of_lt hdigit,
    Nat.or_comm, ← Nat.shiftLeft_add_eq_or_of_lt hregister, Nat.add_comm]

/-- A digit has no room just when the number has more than 64 bits. -/
theorem guard_iff {i v : Nat} {b : UInt8} (hv : v < 2 ^ (7 * i)) :
    (64 ≤ 7 * i ∨ (7 * i = 63 ∧ 1 < (b &&& 0x7f).toUInt64)) ↔
      (10 ≤ i ∨ UInt64.size ≤ v + (b.toNat % 128) <<< (7 * i)) := by
  rw [UInt64.lt_iff_toNat_lt, toNat_payload, Nat.shiftLeft_eq]
  show (_ ∨ _ ∧ 1 < _) ↔ (_ ∨ 2 ^ 64 ≤ _)
  rcases Nat.lt_trichotomy i 9 with hlt | rfl | hgt
  · -- The number has at most nine digits, which make less than 64 bits.
    have hdigit : v + b.toNat % 128 * 2 ^ (7 * i) < 128 * 2 ^ (7 * i) := by
      have hle : b.toNat % 128 * 2 ^ (7 * i) ≤ 127 * 2 ^ (7 * i) :=
        Nat.mul_le_mul_right _ (by omega)
      omega
    have hpow : 2 ^ (7 * i) ≤ 2 ^ 56 := Nat.pow_le_pow_right (by decide) (by omega)
    omega
  · omega
  · omega

/-- **Reading with a register**: shifting digits into 64 bits reads what adding them up does. -/
theorem ulebRegister_eq {start i pos : Nat} {register : UInt64} {bytes : Bytes}
    (hregister : register.toNat < 2 ^ (7 * i)) :
    ulebRegister start (7 * i) register pos bytes =
      ulebFrom start i register.toNat pos bytes := by
  induction bytes generalizing i register pos with
  | nil => rfl
  | cons b bytes ih =>
    rw [ulebRegister, ulebFrom]
    dsimp only
    simp only [guard_iff hregister, and_high_eq_zero_iff]
    by_cases hguard : 10 ≤ i ∨ UInt64.size ≤ register.toNat + (b.toNat % 128) <<< (7 * i)
    · rw [if_pos hguard, if_pos hguard]
    · rw [if_neg hguard, if_neg hguard]
      rw [not_or, Nat.not_le, Nat.not_le] at hguard
      have hvalue := toNat_register hguard.1 hregister hguard.2
      rw [hvalue]
      by_cases hlast : b.toNat < 128
      · rw [if_pos hlast, if_pos hlast]
      · rw [if_neg hlast, if_neg hlast, ← hvalue]
        refine ih (i := i + 1) ?_
        rw [hvalue, Nat.shiftLeft_eq, Nat.mul_add, Nat.pow_add]
        have hdigit : b.toNat % 128 * 2 ^ (7 * i) ≤ 127 * 2 ^ (7 * i) :=
          Nat.mul_le_mul_right _ (by omega)
        omega

theorem uleb_eq_register (c : Cursor) : uleb c = ulebRegister c.pos 0 0 c.pos c.rest := by
  have hstart : (0 : UInt64).toNat < 2 ^ (7 * 0) := Nat.one_pos
  exact (ulebRegister_eq hstart).symm

theorem ulebFrom_eq_error {start i v pos : Nat} {bytes : Bytes} {e : DecodeError} {c : Cursor}
    (h : ulebFrom start i v pos bytes = .error e c) : e = .badUleb128 start := by
  obtain ⟨-, -, he⟩ := ulebFrom_error h start pos
  exact he

end ReadM

namespace Leb128

/-! ### Digits by their places -/

/-- The digit in the byte at a position. -/
def digitAt (data : Bytes) (pos : Nat) : Nat := (data[pos]?.getD 0).toNat % 128

/-- The number that the digits from a position on stand for, up to the one `k` places behind. -/
def numberUpTo (data : Bytes) (pos k : Nat) : Nat :=
  ∑ i ∈ Finset.range (k + 1), digitAt data (pos + i) * 128 ^ i

/-- The byte `k` places behind a position is the first one from there on that tells that no other
digit follows. -/
structure LastDigitAt (data : Bytes) (pos k : Nat) : Prop where
  more : ∀ i < k, ∃ b, data[pos + i]? = some b ∧ 128 ≤ b.toNat
  last : ∃ b, data[pos + k]? = some b ∧ b.toNat < 128

variable {data bs : Bytes} {pos k n : Nat} {b : UInt8}

theorem cons_isPrefix_drop_iff :
    b :: bs <+: data.drop pos ↔ data[pos]? = some b ∧ bs <+: data.drop (pos + 1) := by
  rw [← List.tail_drop, ← List.head?_drop]
  cases data.drop pos with
  | nil => simp
  | cons x bytes => simp [List.cons_prefix_cons, eq_comm]

theorem lastDigitAt_zero_iff :
    LastDigitAt data pos 0 ↔ ∃ b, data[pos]? = some b ∧ b.toNat < 128 :=
  ⟨fun h => h.last, fun h => ⟨nofun, h⟩⟩

theorem lastDigitAt_succ_iff :
    LastDigitAt data pos (k + 1) ↔
      (∃ b, data[pos]? = some b ∧ 128 ≤ b.toNat) ∧ LastDigitAt data (pos + 1) k := by
  have hshift (i : Nat) : pos + 1 + i = pos + (i + 1) := by omega
  constructor
  · rintro ⟨hmore, hlast⟩
    refine ⟨hmore 0 (Nat.succ_pos k), fun i hi => ?_, ?_⟩
    · rw [hshift]
      exact hmore (i + 1) (Nat.succ_lt_succ hi)
    · rw [hshift]
      exact hlast
  · rintro ⟨hfirst, hmore, hlast⟩
    refine ⟨fun i hi => ?_, ?_⟩
    · cases i with
      | zero => exact hfirst
      | succ i =>
        rw [← hshift]
        exact hmore i (Nat.lt_of_succ_lt_succ hi)
    · rw [← hshift]
      exact hlast

/-- Terminated digits reach up to the last one. -/
theorem terminated_iff_lastDigitAt (h : bs <+: data.drop pos) :
    Terminated bs ↔ ∃ k, bs.length = k + 1 ∧ LastDigitAt data pos k := by
  induction bs generalizing pos with
  | nil =>
    constructor
    · exact fun h => h.elim
    · rintro ⟨k, hk, -⟩
      cases hk
  | cons b bs ih =>
    obtain ⟨hb, hbs⟩ := cons_isPrefix_drop_iff.1 h
    by_cases hlast : b.toNat < 128
    · rw [Terminated, if_pos hlast]
      constructor
      · rintro rfl
        exact ⟨0, rfl, lastDigitAt_zero_iff.2 ⟨b, hb, hlast⟩⟩
      · rintro ⟨k, hk, hdigit⟩
        cases k with
        | zero => exact List.length_eq_zero_iff.1 (Nat.succ.inj hk)
        | succ k =>
          obtain ⟨⟨b', hb', hmore⟩, -⟩ := lastDigitAt_succ_iff.1 hdigit
          cases hb.symm.trans hb'
          omega
    · rw [Terminated, if_neg hlast, ih hbs]
      constructor
      · rintro ⟨k, hk, hdigit⟩
        exact ⟨k + 1, congrArg Nat.succ hk,
          lastDigitAt_succ_iff.2 ⟨⟨b, hb, Nat.le_of_not_lt hlast⟩, hdigit⟩⟩
      · rintro ⟨k, hk, hdigit⟩
        cases k with
        | zero =>
          obtain ⟨b', hb', hlt⟩ := lastDigitAt_zero_iff.1 hdigit
          cases hb.symm.trans hb'
          exact absurd hlt hlast
        | succ k => exact ⟨k, Nat.succ.inj hk, (lastDigitAt_succ_iff.1 hdigit).2⟩

/-- The number that digits stand for is a sum over their places. -/
theorem value_eq_sum (h : bs <+: data.drop pos) :
    value bs = ∑ i ∈ Finset.range bs.length, digitAt data (pos + i) * 128 ^ i := by
  induction bs generalizing pos with
  | nil => rfl
  | cons b bs ih =>
    obtain ⟨hb, hbs⟩ := cons_isPrefix_drop_iff.1 h
    have hdigit : digitAt data pos = b.toNat % 128 := by rw [digitAt, hb, Option.getD_some]
    rw [value, List.length_cons, Finset.sum_range_succ', ih hbs, Finset.mul_sum, Nat.add_comm,
      Nat.add_zero pos, hdigit, Nat.pow_zero, Nat.mul_one]
    refine congrArg (· + _) (Finset.sum_congr rfl fun i _ => ?_)
    rw [show pos + 1 + i = pos + (i + 1) by omega, Nat.pow_succ]
    ring

/-- Bytes up to a last digit are the terminated ones. -/
theorem LastDigitAt.exists_isPrefix (h : LastDigitAt data pos k) :
    ∃ bs, bs <+: data.drop pos ∧ bs.length = k + 1 := by
  obtain ⟨b, hb, -⟩ := h.last
  obtain ⟨hlt, -⟩ := List.getElem?_eq_some_iff.1 hb
  refine ⟨(data.drop pos).take (k + 1), List.take_prefix _ _, ?_⟩
  rw [List.length_take, List.length_drop]
  omega

/-- An unsigned number that is written at a position, by the place of its last digit. -/
theorem exists_unsigned_iff {P : Nat → Prop} :
    (∃ bs, Unsigned n bs ∧ bs <+: data.drop pos ∧ P bs.length) ↔
      ∃ k < 10, LastDigitAt data pos k ∧ numberUpTo data pos k = n ∧ n < UInt64.size ∧
        P (k + 1) := by
  constructor
  · rintro ⟨bs, ⟨hterminated, hlength, rfl, hlt⟩, hprefix, hP⟩
    obtain ⟨k, hk, hdigit⟩ := (terminated_iff_lastDigitAt hprefix).1 hterminated
    refine ⟨k, by omega, hdigit, ?_, hlt, hk ▸ hP⟩
    rw [value_eq_sum hprefix, hk]
    rfl
  · rintro ⟨k, hk, hdigit, rfl, hlt, hP⟩
    obtain ⟨bs, hprefix, hlength⟩ := hdigit.exists_isPrefix
    have hterminated := (terminated_iff_lastDigitAt hprefix).2 ⟨k, hlength, hdigit⟩
    refine ⟨bs, ⟨hterminated, by omega, ?_, hlt⟩, hprefix, hlength.symm ▸ hP⟩
    rw [value_eq_sum hprefix, hlength]
    rfl

/-! ### Digits that are not needed -/

/-- No digits of a number are fewer than its shortest ones. -/
theorem length_ofNat_le_length (h : Terminated bs) : (ofNat (value bs)).length ≤ bs.length := by
  have hpos : 0 < bs.length := List.length_pos_of_ne_nil (by rintro rfl; exact h)
  have hle := length_ofNat_le (bs.length - 1) (n := value bs) (by
    rw [Nat.sub_add_cancel hpos]
    exact value_lt bs)
  omega

/-- The shortest digits of a number, and some zeros behind them. -/
def padded (n : Nat) : (zeros : Nat) → Bytes
  | 0 => ofNat n
  | zeros + 1 => (ofNat n).map (· ||| 0x80) ++ List.replicate zeros 0x80 ++ [0]

theorem length_padded (n zeros : Nat) : (padded n zeros).length = (ofNat n).length + zeros := by
  cases zeros with
  | zero => rfl
  | succ zeros => simp [padded]

theorem value_append (bs bs' : Bytes) : value (bs ++ bs') = value bs + 128 ^ bs.length * value bs' := by
  induction bs with
  | nil => simp [value]
  | cons b bs ih =>
    rw [List.cons_append, value, value, ih, List.length_cons, Nat.pow_succ]
    ring

theorem value_map_or (bs : Bytes) : value (bs.map (· ||| 0x80)) = value bs := by
  induction bs with
  | nil => rfl
  | cons b bs ih =>
    have hdigit : (b ||| 0x80).toNat % 2 ^ 7 = b.toNat % 2 ^ 7 := by
      rw [UInt8.toNat_or, Nat.or_mod_two_pow]
      exact Nat.or_zero _
    rw [List.map_cons, value, value, ih]
    exact congrArg (· + _) hdigit

theorem value_zeros (zeros : Nat) : value (List.replicate zeros 0x80 ++ [0]) = 0 := by
  induction zeros with
  | zero => rfl
  | succ zeros ih => rw [List.replicate_succ, List.cons_append, value, ih]; rfl

theorem value_padded (n zeros : Nat) : value (padded n zeros) = n := by
  cases zeros with
  | zero => exact value_ofNat n
  | succ zeros =>
    rw [padded, List.append_assoc, value_append, value_zeros, value_map_or, value_ofNat,
      Nat.mul_zero, Nat.add_zero]

theorem terminated_padded (n zeros : Nat) : Terminated (padded n zeros) := by
  cases zeros with
  | zero => exact terminated_ofNat n
  | succ zeros =>
    refine terminated_iff.2 ⟨_, 0, rfl, List.forall_mem_append.2 ⟨fun x hx => ?_, fun x hx => ?_⟩,
      by decide⟩
    · obtain ⟨b, -, rfl⟩ := List.mem_map.1 hx
      rw [UInt8.toNat_or]
      exact Nat.right_le_or
    · rw [List.eq_of_mem_replicate hx]
      decide

theorem unsigned_padded {zeros : Nat} (hn : n < UInt64.size)
    (hlength : (ofNat n).length + zeros ≤ 10) : Unsigned n (padded n zeros) where
  terminated := terminated_padded n zeros
  length_le := (length_padded n zeros).le.trans hlength
  value_eq := value_padded n zeros
  lt := hn

/-! ### Reading exactly -/

/-- **Unsigned numbers are read exactly**: a number is read if and only if one of the next ten bytes is
a last digit and the digits up to there stand for a number of 64 bits, and it is that number, behind
which the cursor is then.  Otherwise the failure names the position of the first digit.  The shortest
digits of a number of 64 bits, and longer ones with zeros behind them, are read back.  A register of
64 bits is enough for all this. -/
theorem uleb_exact (data : Bytes) (pos : Nat) :
    (∀ n c, ReadM.uleb (Cursor.of data pos) = .ok n c ↔
        ∃ k < 10, LastDigitAt data pos k ∧ numberUpTo data pos k = n ∧ n < UInt64.size ∧
          c = Cursor.of data (pos + (k + 1))) ∧
      ((¬∃ k < 10, LastDigitAt data pos k ∧ numberUpTo data pos k < UInt64.size) →
        ∃ c, ReadM.uleb (Cursor.of data pos) = .error (.badUleb128 pos) c) ∧
      (∀ n < UInt64.size, (ofNat n).length ≤ 10 ∧
        (∀ bs, Terminated bs → value bs = n → (ofNat n).length ≤ bs.length) ∧
        ∀ zeros, (ofNat n).length + zeros ≤ 10 → padded n zeros <+: data.drop pos →
          ReadM.uleb (Cursor.of data pos) =
            .ok n (Cursor.of data (pos + ((ofNat n).length + zeros)))) ∧
      ReadM.uleb (Cursor.of data pos) = ReadM.ulebRegister pos 0 0 pos (data.drop pos) := by
  have hread (n : Nat) (c : Cursor) : ReadM.uleb (Cursor.of data pos) = .ok n c ↔
      ∃ k < 10, LastDigitAt data pos k ∧ numberUpTo data pos k = n ∧ n < UInt64.size ∧
        c = Cursor.of data (pos + (k + 1)) :=
    ReadM.reads_uleb.of_eq_ok_iff.trans
      (exists_unsigned_iff (P := fun length => c = Cursor.of data (pos + length)))
  refine ⟨hread, fun hnone => ?_, fun n hn => ⟨(unsigned_ofNat hn).length_le, ?_, ?_⟩,
    ReadM.uleb_eq_register _⟩
  · cases h : ReadM.uleb (Cursor.of data pos) with
    | error e c => exact ⟨c, by rw [ReadM.ulebFrom_eq_error h]; rfl⟩
    | ok n c =>
      obtain ⟨k, hk, hdigit, rfl, hlt, -⟩ := (hread n c).1 h
      exact absurd ⟨k, hk, hdigit, hlt⟩ hnone
  · rintro bs hbs rfl
    exact length_ofNat_le_length hbs
  · intro zeros hlength hprefix
    rw [← length_padded n zeros]
    exact ReadM.reads_uleb.of_eq_ok_iff.2 ⟨_, unsigned_padded hn hlength, hprefix, rfl⟩

/-- Behind another byte, the largest number of 64 bits is read from ten digits, and so is a small one
with zeros behind its digits. -/
theorem uleb_largest :
    let data : Bytes := [7, 0xff, 0xff, 0xff, 0xff, 0xff, 0xff, 0xff, 0xff, 0xff, 0x01, 9]
    LastDigitAt data 1 9 ∧ numberUpTo data 1 9 = 2 ^ 64 - 1 ∧
      ReadM.uleb (Cursor.of data 1) = .ok (2 ^ 64 - 1) (Cursor.of data 11) ∧
      padded 300 8 = [0xac, 0x82, 0x80, 0x80, 0x80, 0x80, 0x80, 0x80, 0x80, 0] ∧
      ReadM.uleb (Cursor.of (padded 300 8) 0) = .ok 300 (Cursor.of (padded 300 8) 10) := by
  intro data
  have hmore : ∀ b ∈ List.replicate 9 (0xff : UInt8), 128 ≤ b.toNat := by
    intro b hb
    rw [List.eq_of_mem_replicate hb]
    decide
  have hterminated : Terminated ((data.drop 1).take 10) :=
    terminated_iff.2 ⟨List.replicate 9 0xff, 1, rfl, hmore, by decide⟩
  obtain ⟨k, hk, hlast⟩ := (terminated_iff_lastDigitAt (List.take_prefix _ _)).1 hterminated
  cases hk
  have hnumber : numberUpTo data 1 9 = 2 ^ 64 - 1 := by decide +kernel
  have hdigits : (ofNat 300).length = 2 := by decide +kernel
  have hpadded := ((uleb_exact (padded 300 8) 0).2.2.1 300 (by decide)).2.2 8 (by rw [hdigits])
    (List.prefix_refl _)
  rw [hdigits] at hpadded
  exact ⟨hlast, hnumber, ((uleb_exact data 1).1 _ _).2 ⟨9, by decide, hlast, hnumber, by decide, rfl⟩,
    by decide +kernel, hpadded⟩

end Leb128

end MachO
