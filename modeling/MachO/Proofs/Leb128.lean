import MachO.Proofs.Reading

/-!
# Writing LEB128 numbers

* `Leb128.signedValue`, `Leb128.Signed`: how signed numbers are written;
* `ReadM.reads_sleb`: what is read as a signed number;
* `Leb128.ofNat`, `Leb128.ofInt`: the shortest digits of a number, with `Leb128.unsigned_ofNat` and
  `Leb128.signed_ofInt` for numbers of 64 bits.
-/

namespace MachO

namespace Leb128

/-! ### Signed numbers -/

/-- The number that digits in two's complement stand for: the last one has the sign. -/
def signedValue : Bytes → Int
  | [] => 0
  | b :: bs =>
    if b.toNat < 64 then b.toNat
    else if b.toNat < 128 then b.toNat - 128
    else (b.toNat % 128 : Nat) + 128 * signedValue bs

/-- A signed number is written with at most ten digits, not necessarily with as few as possible.
What exceeds 64 bits is lost. -/
structure Signed (n : Int) (bs : Bytes) : Prop where
  terminated : Terminated bs
  length_le : bs.length ≤ 10
  value_eq : (signedValue bs).bmod UInt64.size = n

/-- Digit `i` and those after it make `n` together with the lower digits, which make `v`. -/
structure SignedFrom (i v : Nat) (n : Int) (bs : Bytes) : Prop where
  terminated : Terminated bs
  length_le : i + bs.length ≤ 10
  value_eq : (v + signedValue bs * (1 <<< (7 * i) : Nat)).bmod UInt64.size = n

theorem signedFrom_zero_iff {n : Int} {bs : Bytes} : SignedFrom 0 0 n bs ↔ Signed n bs := by
  have hvalue : ((0 : Nat) + signedValue bs * (1 <<< (7 * 0) : Nat) : Int) = signedValue bs := by
    simp
  constructor
  · rintro ⟨hterminated, hlength, heq⟩
    rw [hvalue] at heq
    exact ⟨hterminated, by omega, heq⟩
  · rintro ⟨hterminated, hlength, heq⟩
    exact ⟨hterminated, by omega, by rwa [hvalue]⟩

theorem not_signedFrom_nil {i v : Nat} {n : Int} : ¬SignedFrom i v n [] := fun h => h.terminated

theorem shiftLeft_succ (i : Nat) : (1 <<< (7 * (i + 1)) : Nat) = 128 * 1 <<< (7 * i) := by
  rw [Nat.shiftLeft_eq, Nat.shiftLeft_eq, Nat.mul_add, Nat.pow_add]
  omega

/-- The last digit counts as the reader counts it. -/
theorem signedValue_last {i v : Nat} {b : UInt8} (h : b.toNat < 128) :
    ReadM.signedValue i (v + (b.toNat % 128) <<< (7 * i)) b =
      v + signedValue [b] * (1 <<< (7 * i) : Nat) := by
  have hmod : b.toNat % 128 = b.toNat := Nat.mod_eq_of_lt h
  have hshift : b.toNat <<< (7 * i) = b.toNat * 1 <<< (7 * i) := by
    rw [Nat.shiftLeft_eq, Nat.shiftLeft_eq, Nat.one_mul]
  rw [signedValue, ReadM.signedValue, hmod, hshift, shiftLeft_succ]
  by_cases hsign : b.toNat < 64
  · rw [if_pos hsign, if_pos hsign]
    push_cast
    ring
  · rw [if_neg hsign, if_neg hsign, if_pos h]
    push_cast
    ring

/-- A digit counts with the lower ones for the digits after it. -/
theorem add_signedValue_cons {i v : Nat} {b : UInt8} {bs : Bytes} (h : ¬b.toNat < 128) :
    (v : Int) + signedValue (b :: bs) * (1 <<< (7 * i) : Nat) =
      (v + (b.toNat % 128) <<< (7 * i) : Nat) + signedValue bs * (1 <<< (7 * (i + 1)) : Nat) := by
  have hshift : (b.toNat % 128) <<< (7 * i) = b.toNat % 128 * 1 <<< (7 * i) := by
    rw [Nat.shiftLeft_eq, Nat.shiftLeft_eq, Nat.one_mul]
  rw [signedValue, if_neg (by omega), if_neg h, hshift, shiftLeft_succ]
  push_cast
  ring

theorem signedFrom_cons_of_last {i v : Nat} {n : Int} {b : UInt8} {bs : Bytes}
    (h : b.toNat < 128) :
    SignedFrom i v n (b :: bs) ↔
      bs = [] ∧ i < 10 ∧
        (ReadM.signedValue i (v + (b.toNat % 128) <<< (7 * i)) b).bmod UInt64.size = n := by
  rw [signedValue_last h]
  constructor
  · rintro ⟨hterminated, hlength, hvalue⟩
    rw [Terminated, if_pos h] at hterminated
    subst hterminated
    exact ⟨rfl, hlength, hvalue⟩
  · rintro ⟨rfl, hlength, hvalue⟩
    refine ⟨?_, hlength, hvalue⟩
    rw [Terminated, if_pos h]

theorem signedFrom_cons_of_more {i v : Nat} {n : Int} {b : UInt8} {bs : Bytes}
    (h : ¬b.toNat < 128) :
    SignedFrom i v n (b :: bs) ↔
      SignedFrom (i + 1) (v + (b.toNat % 128) <<< (7 * i)) n bs := by
  have hlength : i + (b :: bs).length = i + 1 + bs.length := by
    rw [List.length_cons]
    omega
  constructor
  · rintro ⟨hterminated, hle, hvalue⟩
    rw [Terminated, if_neg h] at hterminated
    rw [add_signedValue_cons h] at hvalue
    exact ⟨hterminated, hlength ▸ hle, hvalue⟩
  · rintro ⟨hterminated, hle, hvalue⟩
    refine ⟨?_, hlength ▸ hle, ?_⟩
    · rw [Terminated, if_neg h]
      exact hterminated
    · rw [add_signedValue_cons h]
      exact hvalue

end Leb128

namespace ReadM

/-- What is read as digit `i` and those after it, behind digits that make `v`. -/
theorem slebFrom_eq_ok_iff {start i v pos : Nat} {n : Int} {bytes : Bytes} {c : Cursor} :
    slebFrom start i v pos bytes = .ok n c ↔
      ∃ bs, Leb128.SignedFrom i v n bs ∧ bytes = bs ++ c.rest ∧ c.pos = pos + bs.length := by
  induction bytes generalizing i v pos with
  | nil =>
    constructor
    · rintro ⟨⟩
    · rintro ⟨bs, hbs, hbytes, -⟩
      rw [eq_comm, List.append_eq_nil_iff] at hbytes
      rw [hbytes.1] at hbs
      exact (Leb128.not_signedFrom_nil hbs).elim
  | cons b bytes ih =>
    rw [exists_written_cons Leb128.not_signedFrom_nil, slebFrom]
    by_cases hlast : b.toNat < 128
    · simp only [Leb128.signedFrom_cons_of_last hlast, if_pos hlast]
      constructor
      · intro h
        split at h
        · cases h
        · rename_i hbound
          cases h
          exact ⟨[], ⟨rfl, by omega, rfl⟩, rfl, rfl⟩
      · rintro ⟨_, ⟨rfl, hi, rfl⟩, rfl, hpos⟩
        rw [if_neg (by omega)]
        exact congrArg _ (Cursor.ext hpos.symm rfl)
    · simp only [Leb128.signedFrom_cons_of_more hlast, if_neg hlast]
      rw [← ih]
      constructor
      · intro h
        split at h
        · cases h
        · exact h
      · intro h
        obtain ⟨bs, hbs, -, -⟩ := ih.1 h
        have hlength := hbs.length_le
        rw [if_neg (by omega)]
        exact h

/-- What is read as a signed number is how signed numbers are written. -/
theorem reads_sleb : Reads sleb Leb128.Signed := by
  intro c n c'
  rw [sleb, slebFrom_eq_ok_iff]
  exact exists_congr fun bs => and_congr_left fun _ => Leb128.signedFrom_zero_iff

end ReadM

/-! ### The shortest digits -/

namespace Leb128

/-- The digits of a number, as few as possible. -/
def ofNat (n : Nat) : Bytes :=
  if n < 128 then [UInt8.ofNat n] else UInt8.ofNat (n % 128 + 128) :: ofNat (n / 128)

/-- The digits of a number in two's complement, as few as possible. -/
def ofInt (n : Int) : Bytes :=
  if -64 ≤ n ∧ n < 64 then [UInt8.ofNat (n % 128).toNat]
  else UInt8.ofNat ((n % 128).toNat + 128) :: ofInt (n / 128)
termination_by n.natAbs
decreasing_by omega

theorem toNat_ofNat {n : Nat} (h : n < 256) : (UInt8.ofNat n).toNat = n := by
  rw [UInt8.toNat_ofNat', Nat.mod_eq_of_lt h]

theorem terminated_ofNat (n : Nat) : Terminated (ofNat n) := by
  induction n using Nat.strong_induction_on with
  | _ n ih =>
    rw [ofNat]
    split
    · rename_i hn
      simp [Terminated, toNat_ofNat (show n < 256 by omega), hn]
    · rename_i hn
      have hdigit : (UInt8.ofNat (n % 128 + 128)).toNat = n % 128 + 128 := toNat_ofNat (by omega)
      simp only [Terminated, hdigit, show ¬n % 128 + 128 < 128 by omega, if_false]
      exact ih _ (by omega)

theorem value_ofNat (n : Nat) : value (ofNat n) = n := by
  induction n using Nat.strong_induction_on with
  | _ n ih =>
    rw [ofNat]
    split
    · rename_i hn
      simp [value, toNat_ofNat (show n < 256 by omega), Nat.mod_eq_of_lt hn]
    · rename_i hn
      rw [value, toNat_ofNat (by omega), ih _ (by omega)]
      omega

theorem length_ofNat_le (count : Nat) {n : Nat} (h : n < 128 ^ (count + 1)) :
    (ofNat n).length ≤ count + 1 := by
  induction count generalizing n with
  | zero =>
    rw [ofNat, if_pos (by omega)]
    rfl
  | succ count ih =>
    rw [ofNat]
    split
    · simp
    · have := ih (show n / 128 < 128 ^ (count + 1) by rw [Nat.pow_succ] at h; omega)
      rw [List.length_cons]
      omega

/-- A 64-bit number is written as its digits. -/
theorem unsigned_ofNat {n : Nat} (h : n < UInt64.size) : Unsigned n (ofNat n) where
  terminated := terminated_ofNat n
  length_le := length_ofNat_le 9 (Nat.lt_trans h (by decide))
  value_eq := value_ofNat n
  lt := h

theorem terminated_ofInt (n : Int) : Terminated (ofInt n) := by
  fun_induction ofInt n with
  | case1 n hn => simp [Terminated, toNat_ofNat (show (n % 128).toNat < 256 by omega)]; omega
  | case2 n hn ih =>
    have hdigit : (UInt8.ofNat ((n % 128).toNat + 128)).toNat = (n % 128).toNat + 128 :=
      toNat_ofNat (by omega)
    simp only [Terminated, hdigit, show ¬(n % 128).toNat + 128 < 128 by omega, if_false]
    exact ih

theorem signedValue_ofInt (n : Int) : signedValue (ofInt n) = n := by
  fun_induction ofInt n with
  | case1 n hn =>
    have hdigit : (UInt8.ofNat (n % 128).toNat).toNat = (n % 128).toNat := toNat_ofNat (by omega)
    rw [signedValue, hdigit]
    split
    · omega
    · rw [if_pos (by omega)]
      omega
  | case2 n hn ih =>
    have hdigit : (UInt8.ofNat ((n % 128).toNat + 128)).toNat = (n % 128).toNat + 128 :=
      toNat_ofNat (by omega)
    rw [signedValue, hdigit, if_neg (by omega), if_neg (by omega), ih]
    omega

theorem length_ofInt_le (count : Nat) {n : Int} (hlow : -(64 * 128 ^ count : Nat) ≤ n)
    (hhigh : n < (64 * 128 ^ count : Nat)) : (ofInt n).length ≤ count + 1 := by
  induction count generalizing n with
  | zero =>
    rw [ofInt, if_pos (by omega)]
    rfl
  | succ count ih =>
    rw [ofInt]
    split
    · simp
    · rw [Nat.pow_succ] at hlow hhigh
      have := ih (n := n / 128) (by omega) (by omega)
      rw [List.length_cons]
      omega

/-- A signed 64-bit number is written as its digits. -/
theorem signed_ofInt {n : Int} (hlow : -2 ^ 63 ≤ n) (hhigh : n < 2 ^ 63) : Signed n (ofInt n) where
  terminated := terminated_ofInt n
  length_le := length_ofInt_le 9 (by omega) (by omega)
  value_eq := by
    rw [signedValue_ofInt]
    exact Int.bmod_eq_of_le (by simpa using hlow) (by simpa using hhigh)

end Leb128

end MachO
