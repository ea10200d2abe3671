import MachO.Proofs.Reading

/-!
# Bytes that are read back

* `ReadM.ReadsBack`: a reader reads a value from some bytes, whatever follows them;
* `ReadM.ReadsBack.bind`, `ReadM.ReadsBack.times`: bytes one behind the other;
* `Endian.bytes`: the bytes of a word;
* `Text.Utf8.field`: a name in a field of sixteen bytes;
* `ReadM.readsBack_u32`, `ReadM.readsBack_u64`, `ReadM.readsBack_address`,
  `ReadM.readsBack_fixedName`, `ReadM.readsBack_string`: words and texts.
-/

namespace MachO

/-! ### Readers one after the other -/

namespace ReadM

variable {α β : Type}

/-- A value is read from some bytes, whatever follows them. -/
def ReadsBack (r : ReadM α) (a : α) (bs : Bytes) : Prop :=
  ∀ pos rest, r ⟨pos, bs ++ rest⟩ = .ok a ⟨pos + bs.length, rest⟩

theorem Reads.readsBack {r : ReadM α} {Written : α → Bytes → Prop} (hr : Reads r Written) {a : α}
    {bs : Bytes} (h : Written a bs) : ReadsBack r a bs :=
  fun _ _ => (hr _ _ _).2 ⟨bs, h, rfl, rfl⟩

theorem readsBack_pure (a : α) : ReadsBack (pure a : ReadM α) a [] := fun _ _ => rfl

theorem ReadsBack.bind {r : ReadM α} {f : α → ReadM β} {a : α} {b : β} {bs bs' : Bytes}
    (hr : ReadsBack r a bs) (hf : ReadsBack (f a) b bs') : ReadsBack (r >>= f) b (bs ++ bs') := by
  intro pos rest
  rw [List.append_assoc, List.length_append, ← Nat.add_assoc]
  exact bind_eq_ok_iff.2 ⟨a, _, hr pos _, hf _ rest⟩

/-- Nothing more is read when only the value decides. -/
theorem ReadsBack.bind_of_eq {r : ReadM α} {f : α → ReadM β} {a : α} {b : β} {bs : Bytes}
    (hr : ReadsBack r a bs) (hf : f a = pure b) : ReadsBack (r >>= f) b bs := by
  rw [← List.append_nil bs]
  refine hr.bind ?_
  rw [hf]
  exact readsBack_pure b

/-- A reader that only changes the value reads the same bytes. -/
theorem ReadsBack.map {r : ReadM α} {a : α} {bs : Bytes} (hr : ReadsBack r a bs) (f : α → β) :
    ReadsBack (do return f (← r)) (f a) bs := hr.bind_of_eq rfl

/-- Only errors tell where a reader started. -/
theorem ReadsBack.of_position {f : Nat → ReadM α} {a : α} {bs : Bytes}
    (h : ∀ start, ReadsBack (f start) a bs) : ReadsBack (position >>= f) a bs :=
  fun pos => h pos pos

/-- A condition that holds does not keep a reader from reading. -/
theorem ReadsBack.of_require {p : Prop} [Decidable p] (hp : p) (e : DecodeError) {r : ReadM α}
    {a : α} {bs : Bytes} (h : ReadsBack r a bs) :
    ReadsBack (do require p e; r) a bs := by
  intro pos rest
  exact bind_eq_ok_iff.2 ⟨(), _, require_eq_ok_iff.2 ⟨hp, rfl⟩, h pos rest⟩

/-- Values one behind the other are read one after the other. -/
theorem ReadsBack.times {r : ReadM α} {write : α → Bytes} {as : List α}
    (h : ∀ a ∈ as, ReadsBack r a (write a)) :
    ReadsBack (times r as.length) as (as.flatMap write) := by
  induction as with
  | nil => exact readsBack_pure []
  | cons a as ih =>
    rw [List.forall_mem_cons] at h
    exact h.1.bind ((ih h.2).map (a :: ·))

theorem readsBack_take (bs : Bytes) : ReadsBack (take bs.length) bs bs := by
  intro pos rest
  simp [take, Cursor.skip]

theorem readsBack_uleb {n : Nat} {bs : Bytes} (h : Leb128.Unsigned n bs) : ReadsBack uleb n bs :=
  reads_uleb.readsBack h

/-- A text is read up to the zero byte behind it. -/
theorem readsBack_string {s : String} (h : 0 ∉ Text.Utf8.encode s) :
    ReadsBack string s (Text.Utf8.encode s ++ [0]) := reads_string.readsBack ⟨h, rfl⟩

/-- Reading without moving the cursor finds the same value. -/
theorem ReadsBack.peek {r : ReadM α} {a : α} {bs : Bytes} (h : ReadsBack r a bs) (pos : Nat)
    (rest : Bytes) : ReadM.peek r ⟨pos, bs ++ rest⟩ = .ok a ⟨pos, bs ++ rest⟩ := by
  unfold ReadM.peek
  rw [h pos rest]

/-- Bytes are read back from wherever they are. -/
theorem ReadsBack.runAt {r : ReadM α} {a : α} {bs : Bytes} (h : ReadsBack r a bs)
    {data front rest : Bytes} (hdata : data = front ++ (bs ++ rest)) {pos : Nat}
    (hpos : front.length = pos) : r.runAt data pos = .ok a := by
  subst hdata hpos
  have hread := h front.length rest
  unfold ReadM.runAt Cursor.of
  rw [List.drop_left, hread]

end ReadM

/-! ### Words -/

/-- The digits of a number in base 256, least significant first, as many as are asked for. -/
def Bytes.digits : (size : Nat) → Nat → Bytes
  | 0, _ => []
  | size + 1, n => UInt8.ofNat n :: Bytes.digits size (n / 256)

theorem Bytes.length_digits (size n : Nat) : (Bytes.digits size n).length = size := by
  induction size generalizing n with
  | zero => rfl
  | succ size ih => rw [digits, List.length_cons, ih]

theorem Bytes.ofDigits_digits (size n : Nat) :
    Bytes.ofDigits (Bytes.digits size n) = n % 256 ^ size := by
  induction size generalizing n with
  | zero => simp [digits, ofDigits, Nat.mod_one]
  | succ size ih =>
    have hbyte : (UInt8.ofNat n).toNat = n % 256 := UInt8.toNat_ofNat'
    rw [digits, ofDigits, ih, hbyte, Nat.pow_succ, Nat.mul_comm (256 ^ size), Nat.mod_mul]

/-- A word of the given size, as it is stored. -/
def Endian.bytes : Endian → (size n : Nat) → Bytes
  | .little, size, n => Bytes.digits size n
  | .big, size, n => (Bytes.digits size n).reverse

theorem Endian.length_bytes (e : Endian) (size n : Nat) : (e.bytes size n).length = size := by
  cases e with
  | little => exact Bytes.length_digits size n
  | big => rw [bytes, List.length_reverse, Bytes.length_digits]

theorem Endian.toNat_bytes (e : Endian) {size n : Nat} (h : n < 256 ^ size) :
    e.toNat (e.bytes size n) = n := by
  have hdigits : Bytes.ofDigits (Bytes.digits size n) = n := by
    rw [Bytes.ofDigits_digits, Nat.mod_eq_of_lt h]
  cases e with
  | little => exact hdigits
  | big => rw [bytes, toNat, List.reverse_reverse, hdigits]

/-- A word of four bytes, as it is stored. -/
def Endian.word (e : Endian) (n : UInt32) : Bytes := e.bytes 4 n.toNat

/-- A word of eight bytes, as it is stored. -/
def Endian.long (e : Endian) (n : UInt64) : Bytes := e.bytes 8 n.toNat

/-- An address, as it is stored in an image of the given pointer size. -/
def Endian.address (e : Endian) (w : Width) (n : UInt64) : Bytes := e.bytes w.pointerSize n.toNat

@[simp] theorem Endian.length_word (e : Endian) (n : UInt32) : (e.word n).length = 4 :=
  e.length_bytes 4 _

@[simp] theorem Endian.length_long (e : Endian) (n : UInt64) : (e.long n).length = 8 :=
  e.length_bytes 8 _

@[simp] theorem Endian.length_address (e : Endian) (w : Width) (n : UInt64) :
    (e.address w n).length = w.pointerSize := e.length_bytes _ _

namespace ReadM

/-- A number is read back from as many bytes as hold it. -/
theorem readsBack_bytes (e : Endian) (size : Nat) {n : Nat} (h : n < 256 ^ size) {α : Type}
    (f : Nat → α) : ReadsBack (do return f (e.toNat (← take size))) (f n) (e.bytes size n) := by
  have htake := readsBack_take (e.bytes size n)
  rw [e.length_bytes] at htake
  have hmap := htake.map fun bs => f (e.toNat bs)
  rwa [e.toNat_bytes h] at hmap

theorem readsBack_u32 (e : Endian) (n : UInt32) : ReadsBack (u32 e) n (e.word n) := by
  have h := readsBack_bytes e 4 n.toNat_lt UInt32.ofNat
  rwa [UInt32.ofNat_toNat] at h

theorem readsBack_u64 (e : Endian) (n : UInt64) : ReadsBack (u64 e) n (e.long n) := by
  have h := readsBack_bytes e 8 n.toNat_lt UInt64.ofNat
  rwa [UInt64.ofNat_toNat] at h

/-- An address that the pointer size allows is read back. -/
theorem readsBack_address {w : Width} (e : Endian) {n : UInt64} (h : n.toNat < w.span) :
    ReadsBack (address w e) n (e.address w n) := by
  cases w with
  | bits64 => exact readsBack_u64 e n
  | bits32 =>
    have hword : n.toUInt32.toUInt64 = n := by
      apply UInt64.toNat_inj.1
      rw [UInt32.toNat_toUInt64, UInt64.toNat_toUInt32]
      exact Nat.mod_eq_of_lt h
    have hbytes : e.address .bits32 n = e.word n.toUInt32 := by
      have hmod : n.toUInt32.toNat = n.toNat := by
        rw [UInt64.toNat_toUInt32]
        exact Nat.mod_eq_of_lt h
      rw [Endian.address, Endian.word, hmod]
      rfl
    have hread := (readsBack_u32 e n.toUInt32).map UInt32.toUInt64
    rw [hword] at hread
    rw [hbytes]
    exact hread

end ReadM

/-! ### Names -/

/-- A name in a field of sixteen bytes, with zero bytes behind it. -/
def Text.Utf8.field (name : String) : Bytes :=
  encode name ++ List.replicate (16 - (encode name).length) 0

/-- What a field of sixteen bytes can hold: at most so many bytes, and no zero byte. -/
structure Text.Utf8.IsField (name : String) : Prop where
  length_le : (encode name).length ≤ 16
  zero_notMem : 0 ∉ encode name

theorem Text.Utf8.IsField.length_field {name : String} (h : IsField name) :
    (field name).length = 16 := by
  have := h.length_le
  rw [field, List.length_append, List.length_replicate]
  omega

/-- A name is what stands before the first zero byte of its field, if there is one. -/
theorem Text.Utf8.IsField.takeWhile_field {name : String} (h : IsField name) :
    (field name).takeWhile (· != 0) = encode name := by
  have hname : ∀ b ∈ encode name, (b != 0) = true := by
    intro b hb
    rw [bne_iff_ne]
    rintro rfl
    exact h.zero_notMem hb
  rw [field, List.takeWhile_append_of_pos hname, List.takeWhile_replicate_eq_filter]
  simp

theorem ReadM.readsBack_fixedName {name : String} (h : Text.Utf8.IsField name) :
    ReadsBack fixedName name (Text.Utf8.field name) := by
  have htake := readsBack_take (Text.Utf8.field name)
  rw [h.length_field] at htake
  refine ReadsBack.of_position fun start => ?_
  refine htake.bind_of_eq ?_
  rw [h.takeWhile_field, Text.Utf8.decode?_eq_some_iff.2 rfl]

end MachO
