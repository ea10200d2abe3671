import MachO.Proofs.Leb128

/-!
# What signed LEB128 numbers are read as

Ten digits have six bits more than a number of 64 bits, so that a number may be written which is
none of these.

* `Leb128.IsInt64`: the signed numbers of 64 bits;
* `Leb128.isInt64_signedValue_iff`: which digits stand for one;
* `Leb128.length_ofInt_le_length`: no digits of a number are fewer than `Leb128.ofInt`;
* `Leb128.ReadExactly`, `Leb128.LosesBits`: bytes that are read as the number that is written there,
  and bytes with a tenth digit whose upper bits are lost;
* `Leb128.sleb_exact_iff`: signed numbers are read exactly unless bits are lost.
-/

namespace MachO

namespace Leb128

/-- The signed numbers of 64 bits. -/
def IsInt64 (n : Int) : Prop := -2 ^ 63 ≤ n ∧ n < 2 ^ 63

instance (n : Int) : Decidable (IsInt64 n) := inferInstanceAs (Decidable (_ ∧ _))

theorem bmod_eq_of_isInt64 {n : Int} (h : IsInt64 n) : n.bmod UInt64.size = n :=
  Int.bmod_eq_of_le (by simpa using h.1) (by simpa using h.2)

/-! ### The last digit -/

/-- The digits in front of the last one tell that another one follows. -/
theorem terminated_iff {bs : Bytes} :
    Terminated bs ↔ ∃ front b, bs = front ++ [b] ∧ (∀ x ∈ front, 128 ≤ x.toNat) ∧
      b.toNat < 128 := by
  constructor
  · intro h
    induction bs with
    | nil => exact h.elim
    | cons x bs ih =>
      by_cases hlast : x.toNat < 128
      · rw [Terminated, if_pos hlast] at h
        subst h
        exact ⟨[], x, rfl, List.forall_mem_nil _, hlast⟩
      · rw [Terminated, if_neg hlast] at h
        obtain ⟨front, b, rfl, hfront, hb⟩ := ih h
        exact ⟨x :: front, b, rfl, List.forall_mem_cons.2 ⟨Nat.le_of_not_lt hlast, hfront⟩, hb⟩
  · rintro ⟨front, b, rfl, hfront, hb⟩
    induction front with
    | nil =>
      show Terminated [b]
      rw [Terminated, if_pos hb]
    | cons x front ih =>
      obtain ⟨hx, hfront⟩ := List.forall_mem_cons.1 hfront
      rw [List.cons_append, Terminated, if_neg (Nat.not_lt.2 hx)]
      exact ih hfront

/-- Of two terminated digit strings at the front of the same bytes, neither goes on where the other
one ends. -/
theorem Terminated.eq_of_isPrefix {bs bs' bytes : Bytes} (h : Terminated bs) (h' : Terminated bs')
    (hbs : bs <+: bytes) (hbs' : bs' <+: bytes) : bs = bs' := by
  induction bytes generalizing bs bs' with
  | nil =>
    rw [List.prefix_nil.1 hbs] at h
    exact h.elim
  | cons x bytes ih =>
    cases bs with
    | nil => exact h.elim
    | cons y bs =>
      cases bs' with
      | nil => exact h'.elim
      | cons z bs' =>
        obtain ⟨rfl, htail⟩ := List.cons_prefix_cons.1 hbs
        obtain ⟨rfl, htail'⟩ := List.cons_prefix_cons.1 hbs'
        by_cases hlast : z.toNat < 128
        · rw [Terminated, if_pos hlast] at h h'
          rw [h, h']
        · rw [Terminated, if_neg hlast] at h h'
          rw [ih h h' htail htail']

theorem value_lt (bs : Bytes) : value bs < 128 ^ bs.length := by
  induction bs with
  | nil => exact Nat.one_pos
  | cons b bs ih =>
    rw [value, List.length_cons, Nat.pow_succ]
    omega

/-- Only the last digit has a sign. -/
theorem signedValue_append_last {front : Bytes} (hfront : ∀ x ∈ front, 128 ≤ x.toNat) (b : UInt8) :
    signedValue (front ++ [b]) = value front + (128 ^ front.length : Nat) * signedValue [b] := by
  induction front with
  | nil => simp [value]
  | cons x front ih =>
    obtain ⟨hx, hfront⟩ := List.forall_mem_cons.1 hfront
    rw [List.cons_append, signedValue, if_neg (by omega), if_neg (by omega), ih hfront, value,
      List.length_cons, Nat.pow_succ]
    push_cast
    ring

/-- A last digit counts from `-64` to `63`. -/
theorem signedValue_singleton_bounds {b : UInt8} (h : b.toNat < 128) :
    -64 ≤ signedValue [b] ∧ signedValue [b] < 64 := by
  rw [signedValue, if_pos h]
  split <;> omega

/-- What a number of digits can stand for. -/
theorem signedValue_bounds {bs : Bytes} (h : Terminated bs) :
    -(64 * 128 ^ (bs.length - 1) : Nat) ≤ signedValue bs ∧
      signedValue bs < (64 * 128 ^ (bs.length - 1) : Nat) := by
  obtain ⟨front, b, rfl, hfront, hb⟩ := terminated_iff.1 h
  obtain ⟨hlow, hhigh⟩ := signedValue_singleton_bounds hb
  have hvalue := value_lt front
  rw [signedValue_append_last hfront, List.length_append, List.length_singleton,
    Nat.add_sub_cancel]
  generalize signedValue [b] = d at hlow hhigh
  generalize 128 ^ front.length = p at hvalue
  have hle : (p : Int) * -64 ≤ p * d := Int.mul_le_mul_of_nonneg_left hlow (by omega)
  have hge : (p : Int) * d ≤ p * 63 := Int.mul_le_mul_of_nonneg_left (by omega) (by omega)
  omega

/-- No digits of a number are fewer than its shortest ones. -/
theorem length_ofInt_le_length {bs : Bytes} (h : Terminated bs) :
    (ofInt (signedValue bs)).length ≤ bs.length := by
  have hpos : 0 < bs.length := List.length_pos_of_ne_nil (by rintro rfl; exact h)
  obtain ⟨hlow, hhigh⟩ := signedValue_bounds h
  have hle := length_ofInt_le (bs.length - 1) hlow hhigh
  omega

/-- Nine digits always stand for a number of 64 bits, and ten do if the last one is all sign. -/
theorem isInt64_signedValue_iff {front : Bytes} (hfront : ∀ x ∈ front, 128 ≤ x.toNat) {b : UInt8}
    (hb : b.toNat < 128) (hlength : front.length ≤ 9) :
    IsInt64 (signedValue (front ++ [b])) ↔ front.length < 9 ∨ b = 0 ∨ b = 127 := by
  by_cases hnine : front.length = 9
  · -- The last digit counts `2 ^ 63`, and the others make less than that.
    have hvalue := value_lt front
    rw [hnine] at hvalue
    have hzero : b = 0 ↔ b.toNat = 0 := UInt8.toNat_inj.symm
    have hsign : b = 127 ↔ b.toNat = 127 := UInt8.toNat_inj.symm
    rw [signedValue_append_last hfront, hnine, hzero, hsign, signedValue, if_pos hb]
    unfold IsInt64
    split <;> omega
  · have hbounds := signedValue_bounds (terminated_iff.2 ⟨front, b, rfl, hfront, hb⟩)
    rw [List.length_append, List.length_singleton, Nat.add_sub_cancel] at hbounds
    have hpow : 128 ^ front.length ≤ 128 ^ 8 := Nat.pow_le_pow_right (by decide) (by omega)
    simp only [show front.length < 9 by omega, true_or, iff_true]
    unfold IsInt64
    omega

/-! ### Reading exactly -/

/-- At a position of some bytes, a signed number is read if and only if at most ten digits stand for
one of 64 bits there, and it is that number. -/
def ReadExactly (bytes : Bytes) (pos : Nat) : Prop :=
  ∀ n c, ReadM.sleb (Cursor.of bytes pos) = .ok n c ↔
    ∃ bs, Terminated bs ∧ bs.length ≤ 10 ∧ bs <+: bytes.drop pos ∧ signedValue bs = n ∧ IsInt64 n ∧
      c = Cursor.of bytes (pos + bs.length)

/-- Nine digits are followed by a last one that has other bits than its sign. -/
def LosesBits (bytes : Bytes) : Prop :=
  ∃ front b, front.length = 9 ∧ (∀ x ∈ front, 128 ≤ x.toNat) ∧ b.toNat < 128 ∧ b ≠ 0 ∧ b ≠ 127 ∧
    front ++ [b] <+: bytes

/-- Bits are lost if digits that are read do not stand for a number of 64 bits. -/
theorem losesBits_iff {bytes : Bytes} :
    LosesBits bytes ↔
      ∃ bs, Terminated bs ∧ bs.length ≤ 10 ∧ bs <+: bytes ∧ ¬IsInt64 (signedValue bs) := by
  constructor
  · rintro ⟨front, b, hlength, hfront, hb, hzero, hsign, hprefix⟩
    refine ⟨front ++ [b], terminated_iff.2 ⟨front, b, rfl, hfront, hb⟩, ?_, hprefix, ?_⟩
    · rw [List.length_append, List.length_singleton, hlength]
    · rw [isInt64_signedValue_iff hfront hb (by omega)]
      rintro (hlt | rfl | rfl)
      · omega
      · exact hzero rfl
      · exact hsign rfl
  · rintro ⟨bs, hbs, hlength, hprefix, hvalue⟩
    obtain ⟨front, b, rfl, hfront, hb⟩ := terminated_iff.1 hbs
    rw [List.length_append, List.length_singleton] at hlength
    rw [isInt64_signedValue_iff hfront hb (by omega), not_or, not_or] at hvalue
    exact ⟨front, b, by omega, hfront, hb, hvalue.2.1, hvalue.2.2, hprefix⟩

theorem slebFrom_eq_error {start i v pos : Nat} {bytes : Bytes} {e : DecodeError} {c : Cursor}
    (h : ReadM.slebFrom start i v pos bytes = .error e c) : e = .badSleb128 start := by
  obtain ⟨-, -, he⟩ := ReadM.slebFrom_error h start pos
  exact he

/-- What is read at a position: the digits there, of whose number the low 64 bits are kept. -/
theorem sleb_of_eq_ok_iff {data : Bytes} {pos : Nat} {n : Int} {c : Cursor} :
    ReadM.sleb (Cursor.of data pos) = .ok n c ↔
      ∃ bs, Terminated bs ∧ bs.length ≤ 10 ∧ bs <+: data.drop pos ∧
        (signedValue bs).bmod UInt64.size = n ∧ c = Cursor.of data (pos + bs.length) := by
  rw [ReadM.reads_sleb.of_eq_ok_iff]
  constructor
  · rintro ⟨bs, ⟨hterminated, hlength, hvalue⟩, hprefix, hc⟩
    exact ⟨bs, hterminated, hlength, hprefix, hvalue, hc⟩
  · rintro ⟨bs, hterminated, hlength, hprefix, hvalue, hc⟩
    exact ⟨bs, ⟨hterminated, hlength, hvalue⟩, hprefix, hc⟩

theorem readExactly_iff {data : Bytes} {pos : Nat} :
    ReadExactly data pos ↔ ¬LosesBits (data.drop pos) := by
  rw [losesBits_iff]
  constructor
  · rintro hexact ⟨bs, hbs, hlength, hprefix, hvalue⟩
    -- The digits are read, so by exactness they are those of a number of 64 bits.
    obtain ⟨bs', hbs', -, hprefix', hn, hint, -⟩ :=
      (hexact _ _).1 (sleb_of_eq_ok_iff.2 ⟨bs, hbs, hlength, hprefix, rfl, rfl⟩)
    rw [← hbs.eq_of_isPrefix hbs' hprefix hprefix'] at hn
    exact hvalue (hn ▸ hint)
  · intro hkeeps n c
    rw [sleb_of_eq_ok_iff]
    constructor
    · rintro ⟨bs, hbs, hlength, hprefix, rfl, hc⟩
      have hint : IsInt64 (signedValue bs) := by
        by_contra hvalue
        exact hkeeps ⟨bs, hbs, hlength, hprefix, hvalue⟩
      rw [bmod_eq_of_isInt64 hint]
      exact ⟨bs, hbs, hlength, hprefix, rfl, hint, hc⟩
    · rintro ⟨bs, hbs, hlength, hprefix, rfl, hint, hc⟩
      exact ⟨bs, hbs, hlength, hprefix, bmod_eq_of_isInt64 hint, hc⟩

/-- **A signed number is read exactly unless its tenth digit loses bits**: it is read if and only if
at most ten digits stand for a number of 64 bits, and otherwise the failure names the position of the
first digit.  Where bits are lost, the number is the one that is written modulo `2 ^ 64`.  The shortest
digits of a number are read back. -/
theorem sleb_exact_iff (data : Bytes) (pos : Nat) :
    (ReadExactly data pos ↔ ¬LosesBits (data.drop pos)) ∧
      (∀ e c, ReadM.sleb (Cursor.of data pos) = .error e c → e = .badSleb128 pos) ∧
      (∀ n c, ReadM.sleb (Cursor.of data pos) = .ok n c ↔
        ∃ bs, Terminated bs ∧ bs.length ≤ 10 ∧ bs <+: data.drop pos ∧
          (signedValue bs).bmod UInt64.size = n ∧ c = Cursor.of data (pos + bs.length)) ∧
      ∀ n, IsInt64 n → ofInt n <+: data.drop pos →
        ReadM.sleb (Cursor.of data pos) = .ok n (Cursor.of data (pos + (ofInt n).length)) ∧
          ∀ bs, Terminated bs → signedValue bs = n → (ofInt n).length ≤ bs.length := by
  refine ⟨readExactly_iff, fun e c h => slebFrom_eq_error h, fun n c => sleb_of_eq_ok_iff,
    fun n hn hprefix => ⟨?_, ?_⟩⟩
  · have hsigned := signed_ofInt hn.1 hn.2
    exact sleb_of_eq_ok_iff.2
      ⟨_, hsigned.terminated, hsigned.length_le, hprefix, hsigned.value_eq, rfl⟩
  · rintro bs hbs rfl
    exact length_ofInt_le_length hbs

/-- The least number of 64 bits is read behind another byte, from ten digits that lose nothing. -/
theorem sleb_least :
    let data : Bytes := [7, 0x80, 0x80, 0x80, 0x80, 0x80, 0x80, 0x80, 0x80, 0x80, 0x7f, 9]
    IsInt64 (-2 ^ 63) ∧ ofInt (-2 ^ 63) <+: data.drop 1 ∧
      ReadM.sleb (Cursor.of data 1) = .ok (-2 ^ 63) (Cursor.of data 11) := by
  intro data
  have hdigits : ofInt (-2 ^ 63) = (data.drop 1).take 10 := by
    simp [ofInt, data]
  have hprefix : ofInt (-2 ^ 63) <+: data.drop 1 := hdigits ▸ List.take_prefix 10 _
  have hread := ((sleb_exact_iff data 1).2.2.2 (-2 ^ 63) (by decide) hprefix).1
  rw [hdigits] at hread
  exact ⟨by decide, hprefix, hread⟩

/-- Ten digits that stand for `2 ^ 64` are read as zero. -/
theorem sleb_two_pow_64 :
    let data : Bytes := [0x80, 0x80, 0x80, 0x80, 0x80, 0x80, 0x80, 0x80, 0x80, 0x02]
    Terminated data ∧ signedValue data = 2 ^ 64 ∧
      ReadM.sleb (Cursor.of data 0) = .ok 0 (Cursor.of data 10) ∧ ¬ReadExactly data 0 := by
  intro data
  have hread : ReadM.sleb (Cursor.of data 0) = .ok 0 (Cursor.of data 10) := rfl
  have hmore : ∀ b ∈ List.replicate 9 (0x80 : UInt8), 128 ≤ b.toNat := by
    intro b hb
    rw [List.eq_of_mem_replicate hb]
    decide
  have hdata : Terminated data := terminated_iff.2 ⟨List.replicate 9 0x80, 2, rfl, hmore, by decide⟩
  refine ⟨hdata, rfl, hread, fun hexact => ?_⟩
  obtain ⟨bs, hbs, -, hprefix, hvalue, -⟩ := (hexact _ _).1 hread
  rw [hbs.eq_of_isPrefix hdata hprefix (List.prefix_refl data)] at hvalue
  exact absurd hvalue (by decide)

end Leb128

end MachO
