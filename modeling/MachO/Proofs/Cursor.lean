import MachO.Proofs.Reading

/-!
# Runs of a cursor

* `ReadM.StringsAgree`: what is read as a string of bytes, and as a text;
* `Cursor.Op`, `Cursor.steps`: reads of bytes, numbers and strings, and runs of them on one cursor,
  which go on after failures;
* `Cursor.reads_forward`: what one step does to the position, and what a whole run does.
-/

namespace MachO

/-! ### Strings -/

namespace Text.Utf8

/-- Bytes are UTF-8 if they encode some characters. -/
def Valid (bytes : Bytes) : Prop := ByteArray.IsValidUTF8 ⟨bytes.toArray⟩

theorem decode?_eq_none_iff {bytes : Bytes} : decode? bytes = none ↔ ¬Valid bytes := by
  unfold decode? String.fromUTF8? Valid
  split
  · rename_i h
    simp only [reduceCtorEq, false_iff, Classical.not_not, h]
  · rename_i h
    exact iff_of_true rfl h

end Text.Utf8

namespace ReadM

open Text.Utf8 (Valid encode)

/-- The two readers of strings at a position: both fail there if no zero byte follows.  Otherwise the
bytes before the first one are read, and they are read as a text if and only if they are UTF-8. -/
structure StringsAgree (data : Bytes) (pos : Nat) : Prop where
  of_notMem : 0 ∉ data.drop pos →
    terminated (Cursor.of data pos) = .error (.unterminated pos) (Cursor.of data pos) ∧
      string (Cursor.of data pos) = .error (.unterminated pos) (Cursor.of data pos)
  of_mem : 0 ∈ data.drop pos → ∃ bs, 0 ∉ bs ∧ bs ++ [0] <+: data.drop pos ∧
    terminated (Cursor.of data pos) = .ok bs (Cursor.of data (pos + bs.length + 1)) ∧
      (Valid bs → ∃ s, encode s = bs ∧
        string (Cursor.of data pos) = .ok s (Cursor.of data (pos + bs.length + 1))) ∧
      (¬Valid bs → string (Cursor.of data pos) = .error (.notUtf8 pos) (Cursor.of data pos))

theorem terminated_of_notMem {c : Cursor} (h : 0 ∉ c.rest) :
    terminated c = .error (.unterminated c.pos) c := by
  have hfind : c.rest.findIdx? (· == 0) = none := by
    rw [List.findIdx?_eq_none_iff]
    intro b hb
    rw [beq_eq_false_iff_ne]
    rintro rfl
    exact h hb
  rw [terminated_eq, hfind]

theorem stringsAgree (data : Bytes) (pos : Nat) : StringsAgree data pos where
  of_notMem h := by
    have hread : terminated (Cursor.of data pos) = .error (.unterminated pos) _ :=
      terminated_of_notMem h
    rw [string_eq, hread]
    exact ⟨rfl, rfl⟩
  of_mem h := by
    obtain ⟨bs, rest, hrest, hbs⟩ := List.eq_append_cons_of_mem h
    have hprefix : bs ++ [0] <+: data.drop pos := ⟨rest, by rw [hrest, List.append_assoc]; rfl⟩
    have hread : terminated (Cursor.of data pos) = .ok bs (Cursor.of data (pos + bs.length + 1)) :=
      reads_terminated.of_eq_ok_iff.2 ⟨_, ⟨hbs, rfl⟩, hprefix, by
        rw [List.length_append, List.length_singleton, Nat.add_assoc]⟩
    refine ⟨bs, hbs, hprefix, hread, fun hvalid => ?_, fun hvalid => ?_⟩
    · cases hdecode : Text.Utf8.decode? bs with
      | none => exact absurd hvalid (Text.Utf8.decode?_eq_none_iff.1 hdecode)
      | some s =>
        refine ⟨s, Text.Utf8.decode?_eq_some_iff.1 hdecode, ?_⟩
        simp only [string_eq, hread, hdecode]
    · have hdecode := Text.Utf8.decode?_eq_none_iff.2 hvalid
      simp only [string_eq, hread, hdecode]
      rfl

/-- A reader that only fails where it started advances if its successes move the cursor. -/
theorem Moves.advances {α : Type} {r : ReadM α} (hmoves : Moves 1 r)
    (hstays : ∀ ⦃c e c'⦄, r c = .error e c' → c' = c) : Advances r := by
  intro c
  cases h : r c with
  | ok a c' => exact hmoves h
  | error e c' => exact ⟨0, Nat.zero_le _, hstays h⟩

theorem advances_u8 : Advances u8 := by
  refine moves_u8.advances fun c e c' h => ?_
  unfold u8 at h
  split at h
  · cases h
    rfl
  · cases h

theorem cursor_of_terminated_eq_error {c c' : Cursor} {e : DecodeError}
    (h : terminated c = .error e c') : c' = c := by
  rw [terminated_eq] at h
  split at h
  · cases h
    rfl
  · cases h

theorem advances_terminated : Advances terminated :=
  moves_terminated.advances fun _ _ _ => cursor_of_terminated_eq_error

theorem advances_string : Advances string := by
  refine moves_string.advances fun c e c' h => ?_
  rw [string_eq] at h
  split at h
  · rename_i hread
    cases h
    exact cursor_of_terminated_eq_error hread
  · split at h
    · cases h
    · cases h
      rfl

end ReadM

/-! ### Runs -/

namespace Cursor

/-- A read that can be asked of a cursor. -/
inductive Op
  | u8
  | uleb
  | sleb
  | string
  | terminated
  deriving DecidableEq, Repr

/-- What a success gives. -/
abbrev Op.Value : Op → Type
  | .u8 => UInt8
  | .uleb => Nat
  | .sleb => Int
  | .string => String
  | .terminated => Bytes

/-- What a read does. -/
def Op.reader : (op : Op) → ReadM op.Value
  | .u8 => ReadM.u8
  | .uleb => ReadM.uleb
  | .sleb => ReadM.sleb
  | .string => ReadM.string
  | .terminated => ReadM.terminated

/-- A read, with the cursor before and after it. -/
structure Step where
  op : Op
  before : Cursor
  result : Except DecodeError op.Value
  after : Cursor

/-- Reads once. -/
def Op.step (op : Op) (c : Cursor) : Step :=
  match op.reader c with
  | .ok a c' => ⟨op, c, .ok a, c'⟩
  | .error e c' => ⟨op, c, .error e, c'⟩

/-- Reads one after the other, also after failures. -/
def steps : List Op → Cursor → List Step
  | [], _ => []
  | op :: ops, c => op.step c :: steps ops (op.step c).after

/-- A step in a byte string: it does not go back or beyond the end, and a success consumes a byte. -/
structure Step.Forward (data : Bytes) (s : Step) : Prop where
  before_eq : s.before = Cursor.of data s.before.pos
  le : s.before.pos ≤ s.after.pos
  inside : s.after.pos ≤ data.length
  consumes : ∀ a, s.result = .ok a → s.before.pos + 1 ≤ s.after.pos

theorem Op.advances (op : Op) : ReadM.Advances op.reader := by
  cases op with
  | u8 => exact ReadM.advances_u8
  | uleb => exact ReadM.advances_uleb
  | sleb => exact ReadM.advances_sleb
  | string => exact ReadM.advances_string
  | terminated => exact ReadM.advances_terminated

@[simp] theorem Op.step_before (op : Op) (c : Cursor) : (op.step c).before = c := by
  unfold step
  split <;> rfl

variable {data : Bytes} {pos : Nat}

/-- How far a read moves a cursor. -/
theorem Op.step_after (op : Op) (data : Bytes) (pos : Nat) :
    ∃ n, n ≤ data.length - pos ∧ (op.step (Cursor.of data pos)).after = Cursor.of data (pos + n) ∧
      ∀ a, (op.step (Cursor.of data pos)).result = .ok a → 1 ≤ n := by
  have hahead := op.advances (Cursor.of data pos)
  have hrest : (Cursor.of data pos).rest.length = data.length - pos := List.length_drop
  unfold Op.step
  cases hread : op.reader (Cursor.of data pos) with
  | ok a c' =>
    rw [hread] at hahead
    obtain ⟨n, hn, hle, rfl⟩ := hahead
    exact ⟨n, hrest ▸ hle, Cursor.of_skip data pos n, fun _ _ => hn⟩
  | error e c' =>
    rw [hread] at hahead
    obtain ⟨n, hle, rfl⟩ := hahead
    exact ⟨n, hrest ▸ hle, Cursor.of_skip data pos n, nofun⟩

theorem Op.step_forward (op : Op) (hpos : pos ≤ data.length) :
    (op.step (Cursor.of data pos)).Forward data := by
  obtain ⟨n, hn, hafter, hconsumes⟩ := op.step_after data pos
  have hbefore : (op.step (Cursor.of data pos)).before.pos = pos := by rw [Op.step_before]; rfl
  have hpos' : (op.step (Cursor.of data pos)).after.pos = pos + n := by rw [hafter]; rfl
  refine ⟨?_, ?_, ?_, fun a ha => ?_⟩
  · rw [hbefore, Op.step_before]
  · omega
  · omega
  · have hone := hconsumes a ha
    omega

/-- All steps of a run inside a byte string go forward, from where the run starts. -/
theorem forward_of_mem_steps {ops : List Op} {s : Step} (hpos : pos ≤ data.length)
    (hs : s ∈ steps ops (Cursor.of data pos)) : s.Forward data ∧ pos ≤ s.before.pos := by
  induction ops generalizing pos with
  | nil => cases hs
  | cons op ops ih =>
    rw [steps, List.mem_cons] at hs
    rcases hs with rfl | hs
    · refine ⟨op.step_forward hpos, ?_⟩
      rw [Op.step_before]
      exact Nat.le_refl pos
    · -- The rest of the run starts where the first step ends.
      obtain ⟨n, hn, hafter, -⟩ := op.step_after data pos
      rw [hafter] at hs
      obtain ⟨hforward, hle⟩ := ih (by omega) hs
      exact ⟨hforward, Nat.le_trans (Nat.le_add_right pos n) hle⟩

/-- No step starts before the end of an earlier one. -/
theorem pairwise_steps {ops : List Op} (hpos : pos ≤ data.length) :
    (steps ops (Cursor.of data pos)).Pairwise fun s t => s.after.pos ≤ t.before.pos := by
  induction ops generalizing pos with
  | nil => exact .nil
  | cons op ops ih =>
    obtain ⟨n, hn, hafter, -⟩ := op.step_after data pos
    rw [steps, hafter]
    refine .cons (fun t ht => ?_) (ih (by omega))
    rw [hafter]
    exact (forward_of_mem_steps (by omega) ht).2

/-- **A cursor only goes forward**: whatever is read from a position inside a byte string, in whatever
order and also after failures, no read moves the cursor back or beyond the end, and every success
consumes at least one byte.  Wherever a cursor is, also beyond the end, what is read as a string of
bytes there is read as a text, up to the same position, if and only if it is UTF-8, and the failures
leave the cursor where it is. -/
theorem reads_forward (data : Bytes) (pos : Nat) :
    (pos ≤ data.length → ∀ ops : List Op,
      (∀ s ∈ steps ops (Cursor.of data pos), s.Forward data) ∧
        (steps ops (Cursor.of data pos)).Pairwise fun s t => s.after.pos ≤ t.before.pos) ∧
      ReadM.StringsAgree data pos :=
  ⟨fun hpos _ => ⟨fun _ hs => (forward_of_mem_steps hpos hs).1, pairwise_steps hpos⟩,
    ReadM.stringsAgree data pos⟩

/-- What is not UTF-8 is left unread as a text and then read as bytes; a number is read, and one
without a last digit is only passed by.  Beyond the end there is no string. -/
theorem reads_forward_mixed :
    let data : Bytes := [0x5f, 0xc3, 0, 0xe5, 0x8e, 0x26, 0x80]
    let run := steps [.string, .terminated, .uleb, .sleb, .u8] (Cursor.of data 1)
    1 ≤ data.length ∧ run.map (·.after.pos) = [1, 3, 6, 7, 7] ∧ (∀ s ∈ run, s.Forward data) ∧
      ReadM.string (Cursor.of data 9) = .error (.unterminated 9) (Cursor.of data 9) := by
  intro data run
  have hpos : 1 ≤ data.length := by decide
  have hpositions : run.map (·.after.pos) = [1, 3, 6, 7, 7] := by decide +kernel
  obtain ⟨hforward, -⟩ := (reads_forward data 1).1 hpos
    [.string, .terminated, .uleb, .sleb, .u8]
  obtain ⟨-, hstring⟩ := (reads_forward data 9).2.of_notMem (by decide)
  exact ⟨hpos, hpositions, hforward, hstring⟩

end Cursor

end MachO
