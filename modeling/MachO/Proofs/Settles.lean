import MachO.Proofs.Fields

/-!
# What comes of reading

* `ReadM.Settles`: a reader gets from one position to another with a value of some kind, or it fails
  in one of some ways;
* `ReadM.Settles.bind`, `ReadM.Settles.times`: readers one after the other;
* `Text.Utf8.NameAt`, `Text.Utf8.StringAt`: the texts that `ReadM.fixedName` and `ReadM.string` find;
* `Text.Utf8.FoundIn`: a text whose bytes lie in a byte string.
-/

namespace MachO

/-! ### Texts -/

namespace Text.Utf8

/-- A text without zero bytes, whose bytes lie one behind the other in a byte string. -/
def FoundIn (s : String) (data : Bytes) : Prop :=
  0 ∉ encode s ∧ ∃ pos, data.slice? pos (encode s).length = some (encode s)

/-- A name stands before the first zero byte of the sixteen bytes at a position. -/
def NameAt (data : Bytes) (pos : Nat) (name : String) : Prop :=
  encode name = ((data.drop pos).take 16).takeWhile (· != 0)

/-- A text stands at a position, up to the first zero byte. -/
def StringAt (data : Bytes) (pos : Nat) (s : String) : Prop :=
  0 ∉ encode s ∧ encode s ++ [0] <+: data.drop pos

variable {data : Bytes} {pos : Nat} {s : String}

theorem foundIn_of_isPrefix (hzero : 0 ∉ encode s) (hpos : pos ≤ data.length)
    (h : encode s <+: data.drop pos) : FoundIn s data := by
  have hlength := h.length_le
  rw [List.length_drop] at hlength
  exact ⟨hzero, pos, Bytes.slice?_eq_some_iff.2 ⟨by omega, (List.prefix_iff_eq_take.1 h).symm⟩⟩

theorem NameAt.foundIn (h : NameAt data pos s) (hpos : pos ≤ data.length) : FoundIn s data := by
  refine foundIn_of_isPrefix (fun hzero => ?_) hpos ?_
  · rw [h] at hzero
    simpa using List.mem_takeWhile_imp hzero
  · rw [h]
    exact (List.takeWhile_prefix _).trans (List.take_prefix _ _)

theorem StringAt.foundIn (h : StringAt data pos s) : FoundIn s data := by
  obtain ⟨hzero, hprefix⟩ := h
  have hlength := hprefix.length_le
  rw [List.length_append, List.length_drop, List.length_singleton] at hlength
  exact foundIn_of_isPrefix hzero (by omega) ((List.prefix_append _ _).trans hprefix)

end Text.Utf8

/-! ### Readers -/

namespace ReadM

variable {α β : Type} {r : ReadM α} {data : Bytes} {pos mid stop size : Nat} {Post : α → Prop}
  {Fault : DecodeError → Prop}

/-- A reader gets from one position to another with a value that has a property, or it fails in one
of some ways. -/
def Settles (r : ReadM α) (data : Bytes) (pos stop : Nat) (Post : α → Prop)
    (Fault : DecodeError → Prop) : Prop :=
  (∃ a, r (Cursor.of data pos) = .ok a (Cursor.of data stop) ∧ Post a) ∨
    ∃ e c, r (Cursor.of data pos) = .error e c ∧ Fault e

theorem settles_pure {a : α} (h : Post a) : Settles (pure a) data pos pos Post Fault :=
  .inl ⟨a, rfl, h⟩

theorem Settles.bind {f : α → ReadM β} {Post' : β → Prop} (hr : Settles r data pos mid Post Fault)
    (hf : ∀ a, Post a → Settles (f a) data mid stop Post' Fault) :
    Settles (r >>= f) data pos stop Post' Fault := by
  rcases hr with ⟨a, hread, ha⟩ | ⟨e, c, hread, he⟩
  · rcases hf a ha with ⟨b, hread', hb⟩ | ⟨e, c, hread', he⟩
    · exact .inl ⟨b, (bind_of_ok hread).trans hread', hb⟩
    · exact .inr ⟨e, c, (bind_of_ok hread).trans hread', he⟩
  · exact .inr ⟨e, c, bind_of_error hread, he⟩

theorem Settles.imp {Post' : α → Prop} (hr : Settles r data pos stop Post Fault)
    (h : ∀ a, Post a → Post' a) : Settles r data pos stop Post' Fault :=
  hr.imp_left fun ⟨a, hread, ha⟩ => ⟨a, hread, h a ha⟩

theorem Settles.map {g : α → β} {Post' : β → Prop} (hr : Settles r data pos stop Post Fault)
    (hg : ∀ a, Post a → Post' (g a)) :
    Settles (do return g (← r)) data pos stop Post' Fault :=
  hr.bind fun a ha => settles_pure (hg a ha)

/-- The rest is read if a condition holds. -/
theorem Settles.of_require {p : Prop} [Decidable p] {e : DecodeError} (hfault : ¬p → Fault e)
    (hr : p → Settles r data pos stop Post Fault) :
    Settles (do require p e; r) data pos stop Post Fault := by
  by_cases hp : p
  · have hrequire : Settles (require p e) data pos pos (fun _ => p) Fault :=
      .inl ⟨(), require_of_pos hp e _, hp⟩
    exact hrequire.bind fun _ => hr
  · exact .inr ⟨e, _, bind_of_error (require_of_neg hp e _), hfault hp⟩

/-- Values of the same size stand at equal distances. -/
theorem Settles.times {P : Nat → α → Prop} {count : Nat}
    (hr : ∀ i < count, Settles r data (pos + i * size) (pos + (i + 1) * size)
      (P (pos + i * size)) Fault) :
    Settles (times r count) data pos (pos + count * size)
      (fun as => as.length = count ∧ ∀ i (hi : i < as.length), P (pos + i * size) as[i]) Fault := by
  induction count generalizing pos with
  | zero =>
    rw [Nat.zero_mul]
    exact settles_pure ⟨rfl, nofun⟩
  | succ count ih =>
    have hshift (i : Nat) : pos + (i + 1) * size = pos + size + i * size := by
      rw [Nat.succ_mul, Nat.add_assoc, Nat.add_comm size]
    have hfirst := hr 0 (Nat.zero_lt_succ _)
    rw [Nat.zero_mul, Nat.zero_add, Nat.one_mul, Nat.add_zero] at hfirst
    rw [hshift]
    refine hfirst.bind fun a ha => Settles.map (ih fun i hi => ?_) fun as has => ?_
    · have hnext := hr (i + 1) (Nat.succ_lt_succ hi)
      rwa [hshift, hshift] at hnext
    · obtain ⟨hlength, hall⟩ := has
      refine ⟨congrArg (· + 1) hlength, fun i hi => ?_⟩
      cases i with
      | zero =>
        rw [Nat.zero_mul, Nat.add_zero]
        exact ha
      | succ i =>
        rw [hshift]
        exact hall i (Nat.lt_of_succ_lt_succ hi)

/-- A field is read where there are enough bytes. -/
theorem ReadsField.settles {f : Bytes → Nat → α} (hr : ReadsField r size f)
    (h : pos + size ≤ data.length) :
    Settles r data pos (pos + size) (· = f data pos) Fault :=
  .inl ⟨_, hr.eq_ok h, rfl⟩

/-- A name is read where there are enough bytes, unless they are no text. -/
theorem settles_fixedName (h : pos + 16 ≤ data.length)
    (hfault : (∀ name, ¬Text.Utf8.NameAt data pos name) → Fault (.notUtf8 pos)) :
    Settles fixedName data pos (pos + 16) (Text.Utf8.NameAt data pos) Fault := by
  have hposition : Settles position data pos pos (· = pos) Fault := .inl ⟨pos, rfl, rfl⟩
  refine hposition.bind fun start hstart => ?_
  subst start
  refine ((readsField_take 16).settles h).bind fun field hfield => ?_
  subst hfield
  cases hdecode : Text.Utf8.decode? (((data.drop pos).take 16).takeWhile (· != 0)) with
  | some name => exact settles_pure (Text.Utf8.decode?_eq_some_iff.1 hdecode)
  | none =>
    refine .inr ⟨_, _, rfl, hfault fun name hname => ?_⟩
    rw [Text.Utf8.decode?_eq_some_iff.2 hname] at hdecode
    cases hdecode

theorem runAt_string_eq_ok_iff {s : String} :
    string.runAt data pos = .ok s ↔ Text.Utf8.StringAt data pos s := by
  simp only [runAt_eq_ok_iff, reads_string.of_eq_ok_iff]
  constructor
  · rintro ⟨_, bs, ⟨hzero, rfl⟩, hprefix, -⟩
    exact ⟨hzero, hprefix⟩
  · rintro ⟨hzero, hprefix⟩
    exact ⟨_, _, ⟨hzero, rfl⟩, hprefix, rfl⟩

theorem Settles.runAt (hr : Settles r data pos stop Post Fault) :
    (∃ a, r.runAt data pos = .ok a ∧ Post a) ∨ ∃ e, r.runAt data pos = .error e ∧ Fault e := by
  unfold ReadM.runAt
  rcases hr with ⟨a, hread, ha⟩ | ⟨e, c, hread, he⟩
  · rw [hread]
    exact .inl ⟨a, rfl, ha⟩
  · rw [hread]
    exact .inr ⟨e, rfl, he⟩

end ReadM

end MachO
