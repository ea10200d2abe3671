import MachO.Opcode.Program
import MachO.Proofs.Leb128
import MachO.Proofs.Writing

/-!
# Opcodes at other positions

The same bytes are read as the same opcodes wherever they stand, and whatever follows them.  Only
failures tell a position.

* `Positioned.withoutPosition`: values without the positions that they tell;
* `ReadM.Portable`: readers that are told where they are, and only use it in failures;
* `ReadM.portable_uleb`, `ReadM.portable_sleb`, `ReadM.portable_string`: numbers and texts;
* `OpcodeSet.Portable`: opcodes that are read so.
-/

namespace MachO

/-! ### Positions -/

/-- Values that may tell positions of opcodes. -/
class Positioned (α : Type) where
  /-- The value, with zero for every position. -/
  withoutPosition : α → α

export Positioned (withoutPosition)

/-- Offsets in the image and all other numbers are kept. -/
instance : Positioned DecodeError where
  withoutPosition
    | .notUtf8 _ => .notUtf8 0
    | .unterminated _ => .unterminated 0
    | .badUleb128 _ => .badUleb128 0
    | .badSleb128 _ => .badSleb128 0
    | .badSegmentIndex _ index count => .badSegmentIndex 0 index count
    | .slotOutOfBounds _ => .slotOutOfBounds 0
    | .unknownBindOpcode _ opcode => .unknownBindOpcode 0 opcode
    | .unknownThreadedOpcode _ opcode => .unknownThreadedOpcode 0 opcode
    | .unknownRebaseOpcode _ opcode => .unknownRebaseOpcode 0 opcode
    | .unknownBindKind _ kind => .unknownBindKind 0 kind
    | .unknownRebaseKind _ kind => .unknownRebaseKind 0 kind
    | .unknownSpecialOrdinal _ immediate => .unknownSpecialOrdinal 0 immediate
    | .noOrdinal _ => .noOrdinal 0
    | .noSegment _ => .noSegment 0
    | .noKind _ => .noKind 0
    | .noSymbol _ => .noSymbol 0
    | .trailingBytes _ => .trailingBytes 0
    | .missingDone _ => .missingDone 0
    | .badTableIndex _ index size => .badTableIndex 0 index size
    | e => e

instance {α : Type} [Positioned α] : Positioned (Except DecodeError α) where
  withoutPosition
    | .ok a => .ok (withoutPosition a)
    | .error e => .error (withoutPosition e)

/-! ### Readers -/

namespace ReadM

variable {α β : Type}

/-- What a reader reads does not depend on where it is and on what follows, and its failures depend
on the bytes only, but for positions.  The reader is told a position that it may put into
failures. -/
structure Portable (f : Nat → ReadM α) : Prop where
  of_ok : ∀ {p c a c'}, f p c = .ok a c' →
    ∃ bs, c.rest = bs ++ c'.rest ∧ c'.pos = c.pos + bs.length ∧ ∀ p', ReadsBack (f p') a bs
  of_error : ∀ {p c e c'}, f p c = .error e c' → ∀ p' pos, ∃ e' c₁,
    f p' ⟨pos, c.rest⟩ = .error e' c₁ ∧ withoutPosition e' = withoutPosition e

variable {f g : Nat → ReadM α}

theorem Portable.pure (a : α) : Portable fun _ => (pure a : ReadM α) where
  of_ok := by
    rintro p c b c' ⟨⟩
    exact ⟨[], rfl, rfl, fun _ => readsBack_pure a⟩
  of_error := by
    rintro p c e c' ⟨⟩

theorem Portable.throw {e : Nat → DecodeError}
    (h : ∀ p p', withoutPosition (e p') = withoutPosition (e p)) :
    Portable fun p => (throw (e p) : ReadM α) where
  of_ok := by
    rintro p c a c' ⟨⟩
  of_error := by
    rintro p c e' c' ⟨⟩ p' pos
    exact ⟨e p', _, rfl, h p p'⟩

theorem Portable.ite {q : Prop} [Decidable q] (hf : Portable f) (hg : Portable g) :
    Portable fun p => if q then f p else g p := by
  by_cases hq : q
  · simpa only [if_pos hq] using hf
  · simpa only [if_neg hq] using hg

theorem Portable.bind {g : Nat → α → ReadM β} (hf : Portable f)
    (hg : ∀ a, Portable fun p => g p a) : Portable fun p => f p >>= g p where
  of_ok := by
    intro p c b c₂ h
    obtain ⟨a, c₁, hread, hread'⟩ := bind_eq_ok_iff.1 h
    obtain ⟨bs, hrest, hpos, hback⟩ := hf.of_ok hread
    obtain ⟨bs', hrest', hpos', hback'⟩ := (hg a).of_ok hread'
    refine ⟨bs ++ bs', ?_, ?_, fun p' => (hback p').bind (hback' p')⟩
    · rw [hrest, hrest', List.append_assoc]
    · rw [hpos', hpos, List.length_append, Nat.add_assoc]
  of_error := by
    intro p c e c₂ h p' pos
    cases hread : f p c with
    | error e₁ c₁ =>
      cases (bind_of_error hread).symm.trans h
      obtain ⟨e', c', hread', he⟩ := hf.of_error hread p' pos
      exact ⟨e', c', bind_of_error hread', he⟩
    | ok a c₁ =>
      -- The first reader reads the same from the other position.
      obtain ⟨bs, hrest, -, hback⟩ := hf.of_ok hread
      obtain ⟨e', c', hread', he⟩ :=
        (hg a).of_error ((bind_of_ok hread).symm.trans h) p' (pos + bs.length)
      refine ⟨e', c', ?_, he⟩
      rw [hrest, bind_of_ok (hback p' pos c₁.rest)]
      exact hread'

/-- A reader that only changes the value is as good. -/
theorem Portable.map (hf : Portable f) (k : α → β) : Portable fun p => do return k (← f p) :=
  hf.bind fun a => Portable.pure (k a)

/-- It is enough to look at the failures of a reader, when it is known how its values are
written. -/
theorem Reads.portable {r : ReadM α} {Written : α → Bytes → Prop} (hr : Reads r Written)
    (herror : ∀ {c e c'}, r c = .error e c' →
      ∀ pos, ∃ e' c₁, r ⟨pos, c.rest⟩ = .error e' c₁ ∧ withoutPosition e' = withoutPosition e) :
    Portable fun _ => r where
  of_ok := by
    intro p c a c' h
    obtain ⟨bs, hwritten, hrest, hpos⟩ := (hr c a c').1 h
    exact ⟨bs, hrest, hpos, fun _ => hr.readsBack hwritten⟩
  of_error h _ pos := herror h pos

theorem portable_uleb : Portable fun _ => uleb :=
  reads_uleb.portable fun h pos => by
    obtain ⟨c', hread, rfl⟩ := ulebFrom_error h pos pos
    exact ⟨_, c', hread, rfl⟩

theorem portable_sleb : Portable fun _ => sleb :=
  reads_sleb.portable fun h pos => by
    obtain ⟨c', hread, rfl⟩ := slebFrom_error h pos pos
    exact ⟨_, c', hread, rfl⟩

theorem portable_string : Portable fun _ => string :=
  reads_string.portable fun {c e c'} h pos => by
    unfold string textFrom at h ⊢
    cases hfind : c.rest.findIdx? (· == 0) with
    | none =>
      rw [hfind] at h
      cases h
      exact ⟨_, _, rfl, rfl⟩
    | some count =>
      rw [hfind] at h
      dsimp only at h ⊢
      cases hdecode : Text.Utf8.decode? (c.rest.take count) with
      | none =>
        rw [hdecode] at h
        cases h
        exact ⟨_, _, rfl, rfl⟩
      | some s =>
        rw [hdecode] at h
        cases h

/-- A number is all that the operands of most opcodes are. -/
theorem portable_uleb_map (k : Nat → α) : Portable fun _ => do return k (← uleb) :=
  portable_uleb.map k

end ReadM

/-! ### Opcodes -/

namespace OpcodeSet

variable {Op : Type} {ops : OpcodeSet Op}

/-- Opcodes are read alike at all positions and whatever follows them. -/
structure Portable (ops : OpcodeSet Op) : Prop where
  of_ok : ∀ {c op? c'}, ops.read c = .ok op? c' →
    ∃ bs, c.rest = bs ++ c'.rest ∧ c'.pos = c.pos + bs.length ∧ ReadM.ReadsBack ops.read op? bs
  of_error : ∀ {c e c'}, ¬c.atEnd → ops.read c = .error e c' → ∀ pos, ∃ e' c₁,
    ops.read ⟨pos, c.rest⟩ = .error e' c₁ ∧ withoutPosition e' = withoutPosition e

/-- An opcode that is read from all of some bytes is read from them wherever they are. -/
theorem Portable.readsBack (h : ops.Portable) {op? : Option Op} {bs : Bytes}
    (hread : ops.read ⟨0, bs⟩ = .ok op? ⟨bs.length, []⟩) : ReadM.ReadsBack ops.read op? bs := by
  obtain ⟨bs', hrest, -, hback⟩ := h.of_ok hread
  have hbs : bs = bs' := hrest.trans (List.append_nil bs')
  rwa [hbs]

/-- Opcodes are read so if their operands are. -/
theorem portable_of_operands {operands : (position : Nat) → UInt8 → ReadM (Option Op)}
    (hread : ops.read = do
      let position ← ReadM.position
      let byte ← ReadM.u8
      operands position byte)
    (h : ∀ byte, ReadM.Portable fun position => operands position byte) : ops.Portable where
  of_ok := by
    intro c op? c' hok
    obtain ⟨pos, rest⟩ := c
    rw [hread] at hok
    cases rest with
    | nil => cases hok
    | cons byte rest =>
      obtain ⟨bs, hrest, hpos, hback⟩ := (h byte).of_ok hok
      refine ⟨byte :: bs, congrArg (byte :: ·) hrest, ?_, ?_⟩
      · rw [hpos, List.length_cons]
        exact Nat.add_right_comm pos 1 bs.length
      · rw [hread]
        exact ReadM.ReadsBack.of_position fun start =>
          (ReadM.reads_u8.readsBack rfl).bind (hback start)
  of_error := by
    intro c e c' hend herror pos
    obtain ⟨start, rest⟩ := c
    rw [hread] at herror ⊢
    cases rest with
    | nil => exact absurd rfl hend
    | cons byte rest => exact (h byte).of_error herror pos (pos + 1)

end OpcodeSet

end MachO
